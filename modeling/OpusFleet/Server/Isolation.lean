import OpusFleet.Server.Attribution

namespace OpusFleet.Server

open Python Library Protocol Auth Library.Runs Library.Incremental

def inputs (c : ℕ) (es : List Event) : List Input :=
  es.filterMap fun
    | .wake c' input => if c' = c then some input else none
    | _ => none

/-- The calls that connection `c` has made, time stamps aside. -/
def System.said (s : System) (c : ℕ) : List Call :=
  (s.log.filter fun p ↦ p.1 = c).map fun p ↦ p.2.timeless

/-- Environments that only the clock and the broker set apart. -/
structure Env.Agrees (env env' : Env) : Prop where
  mode : env'.mode = env.mode
  hmac : env'.hmac = env.hmac
  limit : env'.limit = env.limit

/-- The same outcome and the same calls but for their times, whatever was there before. -/
def Echoes {α : Type} (env env' : Env) (a b : Ingest) (p q : Ingest × α) : Prop :=
  q.2 = p.2 ∧ ∃ new new', Produced env a new p.1 ∧ Produced env' b new' q.1 ∧
    new'.map Call.timeless = new.map Call.timeless

section Steps

variable {env env' : Env} {a b : Ingest} {α : Type}

theorem echoes_silent {a' b' : Ingest} (ha : Produced env a [] a')
    (hb : Produced env' b [] b') (x : α) :
    Echoes env env' a b (a', x) (b', x) := ⟨rfl, [], [], ha, hb, rfl⟩

theorem echoes_refl (a b : Ingest) (x : α) : Echoes env env' a b (a, x) (b, x) :=
  echoes_silent (Produced.silent rfl rfl rfl) (Produced.silent rfl rfl rfl) x

theorem Echoes.trans {p q p' q' : Ingest × α} (h : Echoes env env' a b p q)
    (h' : Echoes env env' p.1 q.1 p' q') :
    Echoes env env' a b p' q' := by
  obtain ⟨-, new, new', ha, hb, hnew⟩ := h
  obtain ⟨hout, more, more', ha', hb', hmore⟩ := h'
  refine ⟨hout, new ++ more, new' ++ more', ha.trans ha', hb.trans hb', ?_⟩
  rw [List.map_append, List.map_append, hnew, hmore]

theorem cleanup_echoes (a b : Ingest) (peer : Peer) (imei : Str) (x : α) :
    Echoes env env' a b (a.cleanup env peer imei, x) (b.cleanup env' peer imei, x) := by
  obtain ⟨call, ha, ht⟩ := cleanup_produced env peer a imei
  obtain ⟨call', hb, ht'⟩ := cleanup_produced env' peer b imei
  refine ⟨rfl, [call], [call'], ha, hb, ?_⟩
  rw [List.map_singleton, List.map_singleton, ht, ht']

theorem refuse_echoes (a b : Ingest) (peer : Peer) (e : Exc) :
    Echoes env env' a b (a.refuse env peer e) (b.refuse env' peer e) := by
  rw [Ingest.refuse, Ingest.refuse]
  split
  · apply echoes_silent <;> exact Produced.silent rfl rfl rfl
  · exact cleanup_echoes a b peer _ _

section Serve

variable (env : Env) (peer : Peer) (authed : Bool) (ing : Ingest) (imei : Str) (buf : Bytes)

def servedCalls (limit : ℕ) : List Call :=
  if (iterFrames buf).1.any (raises limit) then transcript limit peer authed imei (iterFrames buf).1
  else (transcript limit peer authed imei (iterFrames buf).1).dropLast

def servedPhase (limit : ℕ) : Phase :=
  if (iterFrames buf).1.any (raises limit) then .closed
  else .serving authed (lastId limit peer authed imei (iterFrames buf).1) (iterFrames buf).2

theorem frameLoop_last (frames : List Bytes) :
    (ing.frameLoop env peer authed imei frames).2.1 = lastId env.limit peer authed imei frames := by
  obtain ⟨new, -, ht, -⟩ := frameLoop_spec env peer authed frames ing imei
  obtain ⟨calls, hcalls, -⟩ := transcript_talk env.limit peer authed imei frames
  rw [hcalls] at ht
  obtain ⟨-, hlast⟩ := List.append_inj' ht rfl
  simpa [disconnectCall] using hlast

theorem serve_spec : ∃ new, Produced env ing new (ing.serve env peer authed imei buf).1 ∧
    new.map Call.timeless = servedCalls peer authed imei buf env.limit ∧
    (ing.serve env peer authed imei buf).2 = servedPhase peer authed imei buf env.limit := by
  obtain ⟨new, hp, ht, -⟩ := frameLoop_spec env peer authed (iterFrames buf).1 ing imei
  have hraises := frameLoop_raises env peer authed (iterFrames buf).1 ing imei
  have hlast := frameLoop_last env peer authed ing imei (iterFrames buf).1
  rw [Ingest.serve, servedCalls, servedPhase, ← hraises, ← hlast, ← ht]
  rcases hl : ing.frameLoop env peer authed imei (iterFrames buf).1 with ⟨ing₁, id, _ | e⟩ <;>
    rw [hl] at hp
  · exact ⟨new, hp, by simp, by simp⟩
  · obtain ⟨bye, hp', hb⟩ := cleanup_produced env peer ing₁ id
    exact ⟨new ++ [bye], hp.trans hp', by simp [hb], by simp⟩

end Serve

theorem serve_echoes (h : env.Agrees env') (a b : Ingest) (peer : Peer) (authed : Bool) (imei : Str)
    (buf : Bytes) :
    Echoes env env' a b (a.serve env peer authed imei buf) (b.serve env' peer authed imei buf) := by
  obtain ⟨new, ha, ht, hphase⟩ := serve_spec env peer authed a imei buf
  obtain ⟨new', hb, ht', hphase'⟩ := serve_spec env' peer authed b imei buf
  rw [h.limit] at ht' hphase'
  exact ⟨hphase'.trans hphase.symm, new, new', ha, hb, ht'.trans ht.symm⟩

theorem Env.Agrees.checkFrame (h : env.Agrees env') :
    Ingest.checkFrame env' = Ingest.checkFrame env := by
  funext registry nonce peer payload leftover
  simp only [Ingest.checkFrame, h.limit, h.mode, h.hmac]

theorem answer_echoes (h : env.Agrees env') (a b : Ingest) (registry : Registry) (conn : Connection)
    (payload leftover : Bytes) : Echoes env env' a b (a.answer env registry conn payload leftover)
      (b.answer env' registry conn payload leftover) := by
  rw [Ingest.answer, Ingest.answer, h.checkFrame]
  split
  · exact refuse_echoes a b conn.peer _
  · split
    · split
      · exact refuse_echoes a b conn.peer _
      · exact echoes_refl a b _
    · apply echoes_silent <;> exact Produced.silent rfl rfl rfl

theorem resume_echoes (h : env.Agrees env') (a b : Ingest) (conn : Connection) (input : Input) :
    Option.Rel (Echoes env env' a b) (a.resume env conn input) (b.resume env' conn input) := by
  cases input with
  | drained ok =>
    simp only [Ingest.resume]
    split
    · split
      · exact .some (echoes_refl a b _)
      · exact .some (cleanup_echoes a b conn.peer _ _)
    · split
      · exact .some (echoes_refl a b _)
      · exact .some (cleanup_echoes a b conn.peer _ _)
    · exact .some (cleanup_echoes a b conn.peer _ _)
    · exact .none
  | recv chunk registry =>
    simp only [Ingest.resume]
    split
    · exact .none
    · split
      · split
        · exact .some (echoes_refl a b _)
        · exact .some (refuse_echoes a b conn.peer _)
        · exact .some (answer_echoes h a b registry conn _ _)
      · exact .some (serve_echoes h a b conn.peer _ _ _)
      · exact .none
  | ended ending =>
    simp only [Ingest.resume]
    split
    · exact .some (refuse_echoes a b conn.peer _)
    · exact .some (cleanup_echoes a b conn.peer _ _)
    · exact .none

end Steps

section Alone

variable {env env' : Env} {peer : Peer} {nonce : Nonce} {phase phase' : Phase}

/-- A connection on its own goes the same way in two processes, and says the same. -/
theorem alone_echoes (h : env.Agrees env') (peer : Peer) (nonce : Nonce) (a b : Ingest)
    (phase : Phase) (inputs : List Input) :
    Option.Rel (Echoes env env' a b) (run (localStep env peer nonce) (a, phase) inputs)
      (run (localStep env' peer nonce) (b, phase) inputs) := by
  refine run_rel ?_ (echoes_refl a b phase) inputs
  rintro ⟨a', phase⟩ ⟨b', phase'⟩ input hab
  obtain rfl : phase' = phase := hab.1
  exact rel_imp (fun _ _ hs ↦ hab.trans hs) (resume_echoes h a' b' ⟨peer, nonce, phase'⟩ input)

/-- On its own, from its first phase on, the connection is in `phase` after
`inputs` and has said `calls`. -/
def Solo (env : Env) (ing : Ingest) (peer : Peer) (nonce : Nonce) (inputs : List Input)
    (phase : Phase) (calls : List Call) : Prop :=
  ∃ ing' new, run (localStep env peer nonce) (ing, env.mode.opening) inputs = some (ing', phase) ∧
    Produced env ing new ing' ∧ new.map Call.timeless = calls

variable {ing : Ingest} {ins : List Input} {calls : List Call}

theorem solo_nil (env : Env) (ing : Ingest) (peer : Peer) (nonce : Nonce) :
    Solo env ing peer nonce [] env.mode.opening [] :=
  ⟨ing, [], rfl, Produced.silent rfl rfl rfl, rfl⟩

theorem Solo.agrees (h : Solo env ing peer nonce ins phase calls)
    (hagrees : env.Agrees env') (b : Ingest) :
    Solo env' b peer nonce ins phase calls := by
  obtain ⟨ing', new, hrun, hp, ht⟩ := h
  have hrel := alone_echoes hagrees peer nonce ing b env.mode.opening ins
  rw [hrun] at hrel
  obtain ⟨⟨b', phase'⟩, hb, hphase, new', more, ha', hb', hmore⟩ := rel_some_left hrel
  obtain rfl : phase' = phase := hphase
  obtain rfl : new = new' := List.append_cancel_left (hp.calls.symm.trans ha'.calls)
  exact ⟨b', more, by rw [hagrees.mode, hb], hb', hmore.trans ht⟩

theorem Solo.unique {calls' : List Call} (h : Solo env ing peer nonce ins phase calls)
    (h' : Solo env ing peer nonce ins phase' calls') : phase' = phase ∧ calls' = calls := by
  obtain ⟨a, new, hrun, hp, ht⟩ := h
  obtain ⟨a', new', hrun', hp', ht'⟩ := h'
  obtain ⟨rfl, rfl⟩ : a = a' ∧ phase = phase' := by simpa using hrun.symm.trans hrun'
  obtain rfl : new = new' := List.append_cancel_left (hp.calls.symm.trans hp'.calls)
  exact ⟨rfl, ht'.symm.trans ht⟩

theorem Env.Agrees.refl (env : Env) : env.Agrees env := ⟨rfl, rfl, rfl⟩

theorem Solo.step {ing₁ ing₂ : Ingest} {input : Input} {new : List Call}
    (h : Solo env ing peer nonce ins phase calls)
    (hr : ing₁.resume env ⟨peer, nonce, phase⟩ input = some (ing₂, phase'))
    (hnew : Produced env ing₁ new ing₂) :
    Solo env ing peer nonce (ins ++ [input]) phase' (calls ++ new.map Call.timeless) := by
  obtain ⟨a, before, hrun, hp, ht⟩ := h
  have hrel := resume_echoes (.refl env) ing₁ a ⟨peer, nonce, phase⟩ input
  rw [hr] at hrel
  obtain ⟨⟨a', phase''⟩, ha, hphase, new', more, hnew', hp', hmore⟩ := rel_some_left hrel
  obtain rfl : phase'' = phase' := hphase
  obtain rfl : new = new' := List.append_cancel_left (hnew.calls.symm.trans hnew'.calls)
  refine ⟨a', before ++ more, run_snoc hrun ha, hp.trans hp', ?_⟩
  rw [List.map_append, ht, hmore]

end Alone

section Isolation

variable {env env' : Env} {es es' : List Event} {s s' : System} {c c' : ℕ} {conn conn' : Connection}

theorem inputs_accept (peer : Peer) (nonce : Nonce) :
    inputs c (es ++ [.accept c' peer nonce]) = inputs c es := by
  simp [inputs]

theorem inputs_wake (input : Input) :
    inputs c (es ++ [.wake c' input]) = inputs c es ++ if c' = c then [input] else [] := by
  by_cases h : c' = c <;> simp [inputs, h]

theorem said_settle {ing' : Ingest} {new : List Call} (h : Produced env s.ing new ing') :
    (s.settle c' conn ing').said c = s.said c ++ if c' = c then new.map Call.timeless else [] := by
  rw [System.said, settle_log h]
  by_cases hc : c' = c <;> simp [System.said, hc, List.filter_map, Function.comp_def]

/-- Each connection is where it would be on its own, or the limiter turned it away. -/
structure Isolated (env : Env) (ing : Ingest) (es : List Event) (s : System) : Prop where
  unborn : ∀ c, s.conns c = none → inputs c es = [] ∧ s.said c = []
  born : ∀ c conn, s.conns c = some conn →
    (inputs c es = [] ∧ s.said c = [] ∧ conn.phase = .closed) ∨
      Solo env ing conn.peer conn.nonce (inputs c es) conn.phase (s.said c)

theorem isolated_accept {ing ing' : Ingest} {peer : Peer} {nonce : Nonce} {phase : Phase}
    (h : Isolated env ing es s) (hfresh : s.conns c = none) (hquiet : Produced env s.ing [] ing')
    (hphase : phase = env.mode.opening ∨ phase = .closed) :
    Isolated env ing (es ++ [.accept c peer nonce]) (s.settle c ⟨peer, nonce, phase⟩ ing') := by
  have hsaid (x : ℕ) (conn : Connection) : (s.settle c conn ing').said x = s.said x := by
    rw [said_settle hquiet]
    simp
  refine ⟨?_, ?_⟩
  · intro x hx
    rw [inputs_accept, hsaid]
    exact h.unborn x (settle_none hx).2
  · intro x conn hx
    rw [inputs_accept, hsaid]
    rcases settle_some hx with ⟨rfl, rfl⟩ | ⟨-, hx⟩
    · obtain ⟨hins, hcalls⟩ := h.unborn x hfresh
      rw [hins, hcalls]
      rcases hphase with rfl | rfl
      · exact .inr (solo_nil env ing peer nonce)
      · exact .inl ⟨rfl, rfl, rfl⟩
    · exact h.born x conn hx

theorem isolated_wake {ing ing' : Ingest} {input : Input} {phase : Phase}
    (h : Isolated env ing es s)
    (hconn : s.conns c = some conn) (hr : s.ing.resume env conn input = some (ing', phase)) :
    Isolated env ing (es ++ [.wake c input]) (s.settle c { conn with phase := phase } ing') := by
  obtain ⟨new, hnew⟩ := (resume_turn hr).produced
  refine ⟨?_, ?_⟩
  · intro x hx
    obtain ⟨hne, hx⟩ := settle_none hx
    rw [inputs_wake, said_settle hnew, if_neg hne.symm, if_neg hne.symm, List.append_nil,
      List.append_nil]
    exact h.unborn x hx
  · intro x conn' hx
    rw [inputs_wake, said_settle hnew]
    rcases settle_some hx with ⟨rfl, rfl⟩ | ⟨hne, hx⟩
    · rw [if_pos rfl, if_pos rfl]
      obtain ⟨-, -, hclosed⟩ | hsolo := h.born x conn hconn
      · exact absurd hclosed (resume_unclosed hr)
      · exact .inr (hsolo.step hr hnew)
    · rw [if_neg hne.symm, if_neg hne.symm, List.append_nil, List.append_nil]
      exact h.born x conn' hx

theorem isolated_step (ing : Ingest) {e : Event} (h : Isolated env ing es s)
    (hs : System.step env s e = some s') :
    Isolated env ing (es ++ [e]) s' := by
  obtain ⟨c, peer, nonce, ing', phase, rfl, hfresh, rfl, hquiet, -, hphase⟩ |
    ⟨c, input, conn, ing', phase, rfl, hconn, hr, rfl⟩ := step_cases hs
  · exact isolated_accept h hfresh hquiet hphase
  · exact isolated_wake h hconn hr

theorem isolated_run (ing : Ingest) {maxConcurrent maxPerMinute : ℤ}
    (hrun : run (System.step env) (.init maxConcurrent maxPerMinute) es = some s) :
    Isolated env ing es s := by
  have hinit : Isolated env ing [] (.init maxConcurrent maxPerMinute) := by
    refine ⟨fun c _ ↦ ⟨rfl, rfl⟩, ?_⟩
    intro c conn h
    simp [System.init] at h
  exact run_induction hinit (fun es m e m' _ h _ hs ↦
    isolated_step ing h hs) (throughout_true es) hrun

/-- No connection can influence another. In two processes of the same mode and HMAC,
whatever their clocks, brokers, limits and other connections, two connections with the same
peer, nonce and input say the same but for their times, and they stand at the same point as
soon as they were given something. -/
theorem run_noninterfering (h : env.Agrees env')
    {maxConcurrent maxPerMinute maxConcurrent' maxPerMinute' : ℤ}
    (hrun : run (System.step env) (.init maxConcurrent maxPerMinute) es = some s)
    (hrun' : run (System.step env') (.init maxConcurrent' maxPerMinute') es' = some s')
    (hconn : s.conns c = some conn) (hconn' : s'.conns c' = some conn')
    (hpeer : conn'.peer = conn.peer)
    (hnonce : conn'.nonce = conn.nonce) (hinputs : inputs c' es' = inputs c es) :
    s'.said c' = s.said c ∧ (inputs c es ≠ [] → conn'.phase = conn.phase) := by
  have hsilent {phase : Phase} {calls : List Call} (hs : Solo env' s.ing conn.peer
    conn.nonce [] phase calls) :
      calls = [] := ((solo_nil env' s.ing conn.peer conn.nonce).unique hs).2
  have hleft := (isolated_run s.ing hrun).born c conn hconn
  have hright := (isolated_run s.ing hrun').born c' conn' hconn'
  rw [hpeer, hnonce, hinputs] at hright
  rcases hleft with ⟨hnone, hsaid, -⟩ | hsolo <;> rcases hright with ⟨hnone', hsaid', -⟩ | hsolo'
  · exact ⟨hsaid'.trans hsaid.symm, fun hne ↦ absurd hnone hne⟩
  · rw [hnone] at hsolo'
    exact ⟨(hsilent hsolo').trans hsaid.symm, fun hne ↦ absurd hnone hne⟩
  · have hsolo := hsolo.agrees h s.ing
    rw [hnone'] at hsolo
    exact ⟨hsaid'.trans (hsilent hsolo).symm, fun hne ↦ absurd hnone' hne⟩
  · obtain ⟨hphase, hcalls⟩ := (hsolo.agrees h s.ing).unique hsolo'
    exact ⟨hcalls, fun _ ↦ hphase⟩

/-- A socket that says hello and closes, and another one that is at it meanwhile. -/
def hailed : List Event :=
  [.accept 0 (Link.lone []).peer (Link.lone []).nonce,
    .wake 0 (.recv (encodeFrame (ascii "HELLO:A")) Registry.none), .wake 0 (.ended .eof)]

def hailedTwice : List Event :=
  [.accept 1 (Link.lone []).peer (Link.lone []).nonce,
    .accept 0 (Link.lone []).peer (Link.lone []).nonce,
    .wake 1 (.recv (encodeFrame (ascii "HELLO:A")) Registry.none),
    .wake 0 (.recv (encodeFrame (ascii "HELLO:A")) Registry.none), .wake 1 (.ended .timeout),
      .wake 0 (.ended .eof)]

def Env.late : Env := { Env.calm .disabled with clock := fun n ↦ n, broker := fun _ ↦ .bufferError }

def System.glance (s : System) : ℕ × Option (Str × Str × Bytes) :=
  ((s.said 0).length, (s.conns 0).map fun conn ↦ (conn.peer.ip, conn.peer.text, conn.nonce.1))

def glanced : ℕ × Option (Str × Str × Bytes) :=
  (2, some ((Link.lone []).peer.ip, (Link.lone []).peer.text, (Link.lone []).nonce.1))

theorem glance_conn (h : s.glance = glanced) : (s.said 0).length = 2 ∧
    ∃ conn, s.conns 0 = some conn ∧ conn.peer = (Link.lone []).peer ∧
      conn.nonce = (Link.lone []).nonce := by
  obtain ⟨hsaid, hconns⟩ := Prod.mk.inj h
  obtain ⟨⟨⟨ip, text⟩, nonce, phase⟩, hconn, heq⟩ := Option.map_eq_some_iff.mp hconns
  obtain ⟨rfl, rfl, hnonce⟩ : ip = (Link.lone []).peer.ip ∧ text = (Link.lone []).peer.text ∧
    nonce.1 = (Link.lone []).nonce.1 := by simpa using heq
  exact ⟨hsaid, _, hconn, rfl, Subtype.ext hnonce⟩

theorem run_noninterfering_hailed : ∃ s s',
    run (System.step (Env.calm .disabled)) (.init 64 120) hailed = some s ∧
      run (System.step Env.late) (.init 2 2) hailedTwice = some s' ∧ (s.said 0).length = 2 ∧
      s'.said 0 = s.said 0 := by
  have hview : (run (System.step (Env.calm .disabled)) (.init 64 120) hailed).map System.glance =
      some glanced := by decide +kernel
  have hview' : (run (System.step Env.late) (.init 2 2) hailedTwice).map System.glance =
      some glanced := by
    decide +kernel
  obtain ⟨s, hs, hglance⟩ := Option.map_eq_some_iff.mp hview
  obtain ⟨s', hs', hglance'⟩ := Option.map_eq_some_iff.mp hview'
  obtain ⟨hsaid, conn, hconn, hpeer, hnonce⟩ := glance_conn hglance
  obtain ⟨-, conn', hconn', hpeer', hnonce'⟩ := glance_conn hglance'
  have hagrees : (Env.calm .disabled).Agrees Env.late := ⟨rfl, rfl, rfl⟩
  have hsame := run_noninterfering hagrees hs hs' hconn hconn' (hpeer'.trans hpeer.symm)
    (hnonce'.trans hnonce.symm) rfl
  exact ⟨s, s', hs, hs', hsaid, hsame.1⟩

end Isolation

section Sequential

def bytesIn (ins : List Input) : Bytes :=
  ins.flatMap fun
    | .recv chunk _ => chunk
    | _ => []

variable {env : Env} {peer : Peer} {nonce : Nonce} {ing ing' : Ingest} {ins : List Input}

theorem closed_run {p : Ingest × Phase}
    (h : run (localStep env peer nonce) (ing, .closed) ins = some p) :
    ins = [] ∧ p = (ing, .closed) := by
  cases ins with
  | nil => exact ⟨rfl, (Option.some.inj h).symm⟩
  | cons input ins =>
    have hstep : localStep env peer nonce (ing, .closed) input = none := resume_closed rfl input
    rw [run_cons, hstep] at h
    cases h

section Serving

variable (env) (peer nonce) (ing) (authed : Bool) (imei : Str) (buf : Bytes) {chunk : Bytes}
    (registry : Registry)

theorem serving_step (hchunk : chunk ≠ []) :
    if (iterFrames (buf ++ chunk)).1.any (raises env.limit) then
      ∀ ending, localStep env peer nonce (ing, .serving authed imei buf) (.recv chunk registry) =
        some ((ing.session env peer authed ending imei buf [chunk]).1, .closed)
    else ∃ ing', localStep env peer nonce (ing, .serving authed imei buf) (.recv chunk registry) =
        some (ing', .serving authed (lastId env.limit peer authed imei
          (iterFrames (buf ++ chunk)).1)
          (iterFrames (buf ++ chunk)).2) ∧
      ∀ ending chunks, (ing.session env peer authed ending imei buf (chunk :: chunks)).1 =
        (ing'.session env peer authed ending
          (lastId env.limit peer authed imei (iterFrames (buf ++ chunk)).1)
          (iterFrames (buf ++ chunk)).2 chunks).1 := by
  have hstep : localStep env peer nonce (ing, .serving authed imei buf) (.recv chunk registry) =
      some (ing.serve env peer authed imei (buf ++ chunk)) := by
    simp only [localStep, Ingest.resume, if_neg hchunk]
  have hraises := frameLoop_raises env peer authed (iterFrames (buf ++ chunk)).1 ing imei
  have hlast := frameLoop_last env peer authed ing imei (iterFrames (buf ++ chunk)).1
  rw [hstep, Ingest.serve, ← hraises, ← hlast]
  simp only [Ingest.session, Ingest.mainLoop, if_neg hchunk]
  rcases ing.frameLoop env peer authed imei (iterFrames (buf ++ chunk)).1 with ⟨ing₁, id, _ | e⟩
  · exact ⟨ing₁, rfl, fun _ _ ↦ rfl⟩
  · exact fun _ ↦ rfl

end Serving

theorem serving_sequential {authed : Bool} {imei : Str} {buf : Bytes}
    (h : run (localStep env peer nonce) (ing, .serving authed imei buf) ins =
      some (ing', .closed)) :
    ∃ chunks ending, (∀ chunk ∈ chunks, chunk ≠ []) ∧ chunks.flatten = bytesIn ins ∧
      ∀ env' b, env.Agrees env' → run (localStep env' peer nonce)
        (b, .serving authed imei buf) ins =
        some ((b.session env' peer authed ending imei buf chunks).1, .closed) := by
  induction ins generalizing ing imei buf with
  | nil => simp at h
  | cons input ins ih =>
    cases input with
    | drained ok => simp [localStep, Ingest.resume] at h
    | ended ending =>
      obtain ⟨rfl, -⟩ := closed_run h
      exact ⟨[], ending, by simp, rfl, fun env' b _ ↦ rfl⟩
    | recv chunk registry =>
      by_cases hchunk : chunk = []
      · simp [localStep, Ingest.resume, hchunk] at h
      have hstep := serving_step env peer nonce ing authed imei buf registry hchunk
      rw [run_cons] at h
      by_cases hraises : (iterFrames (buf ++ chunk)).1.any (raises env.limit) = true
      · rw [if_pos hraises] at hstep
        rw [hstep .eof] at h
        obtain ⟨rfl, -⟩ := closed_run h
        refine ⟨[chunk], .eof, by simpa using hchunk, by simp [bytesIn], ?_⟩
        intro env' b hagrees
        have hstep' := serving_step env' peer nonce b authed imei buf registry hchunk
        rw [hagrees.limit, if_pos hraises] at hstep'
        rw [run_cons, hstep' .eof]
        rfl
      · rw [if_neg hraises] at hstep
        obtain ⟨ing₁, hs, -⟩ := hstep
        rw [hs] at h
        obtain ⟨chunks, ending, hchunks, hbytes, hrun⟩ := ih h
        refine ⟨chunk :: chunks, ending, by simpa using ⟨hchunk, hchunks⟩, ?_, ?_⟩
        · rw [List.flatten_cons, hbytes]
          rfl
        · intro env' b hagrees
          have hstep' := serving_step env' peer nonce b authed imei buf registry hchunk
          rw [hagrees.limit, if_neg hraises] at hstep'
          obtain ⟨b₁, hs', hsession⟩ := hstep'
          rw [run_cons, hs', hsession]
          exact hrun env' b₁ hagrees

theorem refuse_sequential {e : Exc}
    (h : run (localStep env peer nonce) (ing.refuse env peer e) ins = some (ing', .closed)) :
    bytesIn ins = [] ∧ ∀ (env' : Env) (b : Ingest),
      run (localStep env' peer nonce) (b.refuse env' peer e) ins =
        some (b.refused env' peer e, .closed) := by
  simp only [Ingest.refuse, Ingest.refused] at h ⊢
  by_cases he : Ingest.refuses e = true
  · simp only [he, if_true] at h ⊢
    cases ins with
    | nil => simp at h
    | cons input ins =>
      cases input with
      | drained ok =>
        obtain ⟨rfl, -⟩ := closed_run h
        exact ⟨rfl, fun _ _ ↦ rfl⟩
      | recv chunk registry => simp [localStep, Ingest.resume] at h
      | ended ending => simp [localStep, Ingest.resume] at h
  · simp only [if_neg he] at h ⊢
    obtain ⟨rfl, -⟩ := closed_run h
    exact ⟨rfl, fun _ _ ↦ rfl⟩

def concluded (env : Env) (registry : Registry) (peer : Peer) (nonce : Nonce) (ending : Ending)
    (okDrains : Bool) (ing : Ingest) : Except Exc ((Bytes × Bytes) × List Bytes) → Ingest
  | .error e => ing.refused env peer e
  | .ok ((payload, leftover), chunks) =>
    match Ingest.checkFrame env registry nonce peer payload leftover with
    | .error e => ing.refused env peer e
    | .ok accepted =>
      if accepted.authed then
        match Ingest.okFrame (accepted.claimed.getD []) with
        | .error e => ing.refused env peer e
        | .ok _ =>
          if okDrains then
            (ing.session env peer accepted.authed ending accepted.imei accepted.leftover chunks).1
          else ing.refused env peer .connection
      else
        (Ingest.session env peer accepted.authed ending { ing with unauthenticated :=
          ing.unauthenticated + 1 }
          accepted.imei accepted.leftover chunks).1

theorem handle_concluded (registry : Registry) (link : Link) (ing : Ingest) {ing₀ : Ingest}
    (hallow : ing.allow env link.peer = (ing₀, true)) (hmode : env.mode ≠ .disabled)
    (hdrain : link.challengeDrains = true) :
    (ing.handle env registry link).1 =
      concluded env registry link.peer link.nonce link.ending link.okDrains ing₀
        (Ingest.readFrame link.ending [] link.chunks) := by
  have hrefused {sent : Bytes} {e : Exc} (h : ing₀.handshake env registry link =
      (ing₀, sent, .error e)) :=
    handle_refused env link registry ing hallow h
  generalize hsent : Ingest.challengeFrame link.nonce = sent
  rcases hread : Ingest.readFrame link.ending [] link.chunks with e | ⟨⟨payload, leftover⟩, chunks⟩
  · have hshake : ing₀.handshake env registry link = (ing₀, sent, .error e) := by
      simp [Ingest.handshake, hmode, hdrain, hread, hsent]
    exact hrefused hshake
  rw [concluded]
  rcases hcheck : Ingest.checkFrame env registry link.nonce link.peer payload leftover
    with e | accepted
  · have hshake : ing₀.handshake env registry link = (ing₀, sent, .error e) := by
      simp [Ingest.handshake, hmode, hdrain, hread, hcheck, hsent]
    exact hrefused hshake
  by_cases hauthed : accepted.authed = true
  swap
  · have hshake : ing₀.handshake env registry link =
        ({ ing₀ with unauthenticated := ing₀.unauthenticated + 1 }, sent,
          .ok (accepted, chunks)) := by
      simp [Ingest.handshake, hmode, hdrain, hread, hcheck, hauthed, hsent]
    simp only [if_neg hauthed]
    exact handle_accepted env registry link ing hallow hshake
  simp only [if_pos hauthed]
  rcases hok : Ingest.okFrame (accepted.claimed.getD []) with e | reply
  · have hshake : ing₀.handshake env registry link = (ing₀, sent, .error e) := by
      simp [Ingest.handshake, hmode, hdrain, hread, hcheck, hauthed, hok, hsent]
    exact hrefused hshake
  by_cases hreply : link.okDrains = true
  · have hshake : ing₀.handshake env registry link =
        (ing₀, sent ++ reply, .ok (accepted, chunks)) := by
      simp [Ingest.handshake, hmode, hdrain, hread, hcheck, hauthed, hok, hreply, hsent]
    simp only [if_pos hreply]
    exact handle_accepted env registry link ing hallow hshake
  · have hshake : ing₀.handshake env registry link = (ing₀, sent ++ reply, .error .connection) := by
      simp [Ingest.handshake, hmode, hdrain, hread, hcheck, hauthed, hok, hreply, hsent]
    simp only [if_neg hreply]
    exact hrefused hshake

theorem answer_sequential {registry : Registry} {phase : Phase} {payload leftover : Bytes}
    (h : run (localStep env peer nonce) (ing.answer env registry ⟨peer, nonce,
      phase⟩ payload leftover) ins =
      some (ing', .closed)) :
    ∃ chunks ending okDrains, (∀ chunk ∈ chunks, chunk ≠ []) ∧ chunks.flatten = bytesIn ins ∧
      ∀ env' b, env.Agrees env' →
        run (localStep env' peer nonce)
          (b.answer env' registry ⟨peer, nonce, phase⟩ payload leftover) ins =
          some (concluded env' registry peer nonce ending okDrains b
            (.ok ((payload, leftover), chunks)), .closed) := by
  have hrefused {e : Exc} (h : run (localStep env peer nonce) (ing.refuse env peer e) ins =
    some (ing', .closed)) :
      ∃ chunks : List Bytes, (∀ chunk ∈ chunks, chunk ≠ []) ∧ chunks.flatten = bytesIn ins ∧
        ∀ (env' : Env) (b : Ingest), run (localStep env' peer nonce) (b.refuse env' peer e) ins =
          some (b.refused env' peer e, .closed) := by
    obtain ⟨hbytes, hrun⟩ := refuse_sequential h
    exact ⟨[], by simp, hbytes.symm, hrun⟩
  rw [Ingest.answer] at h
  simp only [Ingest.answer, concluded]
  rcases hcheck : Ingest.checkFrame env registry nonce peer payload leftover with e | accepted
  · simp only [hcheck] at h
    obtain ⟨chunks, hchunks, hbytes, hrun⟩ := hrefused h
    refine ⟨chunks, .eof, true, hchunks, hbytes, fun env' b hagrees ↦ ?_⟩
    simp only [hagrees.checkFrame, hcheck]
    exact hrun env' b
  by_cases hauthed : accepted.authed = true
  swap
  · simp only [hcheck, if_neg hauthed] at h
    obtain ⟨chunks, ending, hchunks, hbytes, hrun⟩ := serving_sequential h
    refine ⟨chunks, ending, true, hchunks, hbytes, fun env' b hagrees ↦ ?_⟩
    simp only [hagrees.checkFrame, hcheck, Bool.eq_false_of_not_eq_true hauthed]
    exact hrun env' _ hagrees
  rcases hok : Ingest.okFrame (accepted.claimed.getD []) with e | reply
  · simp only [hcheck, if_pos hauthed, hok] at h
    obtain ⟨chunks, hchunks, hbytes, hrun⟩ := hrefused h
    refine ⟨chunks, .eof, true, hchunks, hbytes, fun env' b hagrees ↦ ?_⟩
    simp only [hagrees.checkFrame, hcheck, if_pos hauthed, hok]
    exact hrun env' b
  simp only [hcheck, if_pos hauthed, hok] at h
  -- the OK frame is on its way: its drain decides
  cases ins with
  | nil => simp at h
  | cons input ins =>
    cases input with
    | recv chunk registry => simp [localStep, Ingest.resume] at h
    | ended ending => simp [localStep, Ingest.resume] at h
    | drained ok =>
      cases ok with
      | true =>
        obtain ⟨chunks, ending, hchunks, hbytes, hrun⟩ := serving_sequential h
        refine ⟨chunks, ending, true, hchunks, hbytes, fun env' b hagrees ↦ ?_⟩
        simp only [hagrees.checkFrame, hcheck, if_pos hauthed, hok, if_true]
        exact hrun env' b hagrees
      | false =>
        obtain ⟨rfl, -⟩ := closed_run h
        refine ⟨[], .eof, false, by simp, rfl, fun env' b hagrees ↦ ?_⟩
        simp only [hagrees.checkFrame, hcheck, if_pos hauthed, hok, Bool.false_eq_true, if_false]
        rfl

theorem reading_sequential {buf : Bytes} (hbuf : Ingest.firstFrame buf = none)
    (h : run (localStep env peer nonce) (ing, .reading buf) ins = some (ing', .closed)) :
    ∃ chunks ending okDrains registry, (∀ chunk ∈ chunks, chunk ≠ []) ∧
      chunks.flatten = bytesIn ins ∧
      ∀ env' b, env.Agrees env' → run (localStep env' peer nonce) (b, .reading buf) ins =
        some (concluded env' registry peer nonce ending okDrains b
          (Ingest.readFrame ending buf chunks), .closed) := by
  induction ins generalizing ing buf with
  | nil => simp at h
  | cons input ins ih =>
    cases input with
    | drained ok => simp [localStep, Ingest.resume] at h
    | ended ending =>
      obtain ⟨hbytes, hrun⟩ := refuse_sequential h
      refine ⟨[], ending, true, Registry.none, by simp, hbytes.symm, fun env' b _ ↦ ?_⟩
      rw [Ingest.readFrame, hbuf]
      exact hrun env' b
    | recv chunk registry =>
      by_cases hchunk : chunk = []
      · simp [localStep, Ingest.resume, hchunk] at h
      have hcut (ending : Ending) (chunks : List Bytes) :
        Ingest.readFrame ending buf (chunk :: chunks) =
          Ingest.readFrame ending (buf ++ chunk) chunks := by
        rw [Ingest.readFrame, hbuf]
        exact if_neg hchunk
      have hnonempty {chunks : List Bytes} (hchunks : ∀ chunk ∈ chunks, chunk ≠ []) :
          ∀ c ∈ chunk :: chunks, c ≠ [] := by simpa using ⟨hchunk, hchunks⟩
      have hjoin {chunks : List Bytes} (hbytes : chunks.flatten = bytesIn ins) :
          (chunk :: chunks).flatten = bytesIn (.recv chunk registry :: ins) := by
        rw [List.flatten_cons, hbytes]
        rfl
      rw [run_cons] at h
      simp only [run_cons]
      rcases hfirst : Ingest.firstFrame (buf ++ chunk) with _ | ⟨payload, e | leftover⟩
      · simp only [localStep, Ingest.resume, if_neg hchunk, hfirst, Option.bind_some] at h ⊢
        obtain ⟨chunks, ending, okDrains, registry', hchunks, hbytes, hrun⟩ := ih hfirst h
        refine ⟨chunk :: chunks, ending, okDrains, registry', hnonempty hchunks, hjoin hbytes, ?_⟩
        intro env' b hagrees
        rw [hcut]
        exact hrun env' b hagrees
      · simp only [localStep, Ingest.resume, if_neg hchunk, hfirst, Option.bind_some] at h ⊢
        obtain ⟨hbytes, hrun⟩ := refuse_sequential h
        refine ⟨[chunk], .eof, true, registry, hnonempty (by simp), hjoin hbytes.symm,
          fun env' b _ ↦ ?_⟩
        rw [hcut, Ingest.readFrame, hfirst]
        exact hrun env' b
      · simp only [localStep, Ingest.resume, if_neg hchunk, hfirst, Option.bind_some] at h ⊢
        obtain ⟨chunks, ending, okDrains, hchunks, hbytes, hrun⟩ := answer_sequential h
        refine ⟨chunk :: chunks, ending, okDrains, registry, hnonempty hchunks, hjoin hbytes, ?_⟩
        intro env' b hagrees
        rw [hcut, Ingest.readFrame.eq_def]
        simp only [hfirst]
        exact hrun env' b hagrees

/-- A connection that has come to its end has done what `handle`
does on some link with its bytes. -/
theorem alone_sequential
    (h : run (localStep env peer nonce) (ing, env.mode.opening) ins = some (ing', .closed)) :
    ∃ (link : Link) (registry : Registry), link.peer = peer ∧ link.nonce = nonce ∧
      (∀ chunk ∈ link.chunks, chunk ≠ []) ∧ link.chunks.flatten = bytesIn ins ∧
      ∀ env' (b b₀ : Ingest), env.Agrees env' → b.allow env' peer = (b₀, true) →
        run (localStep env' peer nonce) (b₀, env.mode.opening) ins =
          some ((b.handle env' registry link).1, .closed) := by
  by_cases hmode : env.mode = .disabled
  · rw [hmode] at h ⊢
    obtain ⟨chunks, ending, hchunks, hbytes, hrun⟩ := serving_sequential h
    refine ⟨⟨peer, nonce, chunks, ending, true, true⟩, Registry.none, rfl, rfl, hchunks, hbytes, ?_⟩
    intro env' b b₀ hagrees hallow
    have hshake (link : Link) : b₀.handshake env' Registry.none link =
        (b₀, [], .ok (⟨none, false, []⟩, link.chunks)) :=
      if_pos (hagrees.mode.trans hmode)
    rw [handle_accepted env' Registry.none ⟨peer, nonce, chunks, ending, true,
      true⟩ b hallow (hshake _)]
    exact hrun env' b₀ hagrees
  have hopen : env.mode.opening = .challenging := by
    cases hm : env.mode with
    | disabled => exact absurd hm hmode
    | optional => rfl
    | required => rfl
  rw [hopen] at h ⊢
  cases ins with
  | nil => simp at h
  | cons input ins =>
    cases input with
    | recv chunk registry => simp [localStep, Ingest.resume] at h
    | ended ending => simp [localStep, Ingest.resume] at h
    | drained ok =>
      cases ok with
      | true =>
        obtain ⟨chunks, ending, okDrains, registry, hchunks, hbytes, hrun⟩ :=
          reading_sequential rfl h
        refine ⟨⟨peer, nonce, chunks, ending, true, okDrains⟩, registry, rfl, rfl,
          hchunks, hbytes, ?_⟩
        intro env' b b₀ hagrees hallow
        rw [handle_concluded registry ⟨peer, nonce, chunks, ending, true, okDrains⟩ b hallow
          (hagrees.mode ▸ hmode) rfl]
        exact hrun env' b₀ hagrees
      | false =>
        obtain ⟨rfl, -⟩ := closed_run h
        refine ⟨⟨peer, nonce, [], .eof, false, true⟩, Registry.none, rfl, rfl, by simp, rfl, ?_⟩
        intro env' b b₀ hagrees hallow
        have hshake : b₀.handshake env' Registry.none ⟨peer, nonce, [], .eof, false, true⟩ =
            (b₀, Ingest.challengeFrame nonce, .error .connection) := by
          simp [Ingest.handshake, hagrees.mode, hmode]
        rw [handle_refused env' ⟨peer, nonce, [], .eof, false, true⟩ Registry.none b hallow hshake]
        rfl

end Sequential

section Linear

variable {env : Env} {es : List Event} {s : System} {c : ℕ} {conn : Connection}

theorem bytesIn_inputs (c : ℕ) (es : List Event) : bytesIn (inputs c es) = received c es := by
  induction es using List.reverseRecOn with
  | nil => rfl
  | append_singleton es e ih =>
    cases e with
    | accept c' peer nonce => rw [inputs_accept, received_other (by simp), ih]
    | wake c' input =>
      rw [inputs_wake]
      by_cases hc : c' = c
      · subst hc
        rw [if_pos rfl, bytesIn, List.flatMap_append, ← bytesIn, ih]
        cases input with
        | recv chunk registry => rw [received_recv, List.flatMap_singleton]
        | drained ok => rw [received_other (by simp), List.flatMap_singleton, List.append_nil]
        | ended ending => rw [received_other (by simp), List.flatMap_singleton, List.append_nil]
      · rw [if_neg hc, List.append_nil, received_other (by simp [hc]), ih]

/-- Each connection of a run might as well have been handled on its own. However the event loop
interleaves it with others, a connection that has come to its end after it was given something has
said what `handle` says on a link with its peer, its nonce and the bytes it has read, in any process
and at any time that lets it in. -/
theorem run_sequential {maxConcurrent maxPerMinute : ℤ}
    (hrun : run (System.step env) (.init maxConcurrent maxPerMinute) es = some s)
    (hconn : s.conns c = some conn) (hclosed : conn.phase = .closed) (hinputs : inputs c es ≠ []) :
    ∃ (link : Link) (registry : Registry), link.peer = conn.peer ∧ link.nonce = conn.nonce ∧
      (∀ chunk ∈ link.chunks, chunk ≠ []) ∧ link.chunks.flatten = received c es ∧
      ∀ env' (b : Ingest), env.Agrees env' → (b.allow env' conn.peer).2 = true →
        ∃ new, Produced env' b new (b.handle env' registry link).1 ∧
          new.map Call.timeless = s.said c := by
  obtain ⟨hnone, -⟩ | hsolo := (isolated_run s.ing hrun).born c conn hconn
  · exact absurd hnone hinputs
  rw [hclosed] at hsolo
  obtain ⟨ing', new, halone, -⟩ := id hsolo
  obtain ⟨link, registry, hpeer, hnonce, hchunks, hbytes, hhandle⟩ := alone_sequential halone
  refine ⟨link, registry, hpeer, hnonce, hchunks, hbytes.trans (bytesIn_inputs c es), ?_⟩
  intro env' b hagrees hallow
  obtain ⟨hquiet, -, -⟩ := allow_silent env' b conn.peer
  rcases ha : b.allow env' conn.peer with ⟨b₀, ok⟩
  rw [ha] at hallow hquiet
  obtain rfl : ok = true := hallow
  obtain ⟨b₁, said, hb, hp, ht⟩ := hsolo.agrees hagrees b₀
  have hsame := hhandle env' b b₀ hagrees ha
  rw [hagrees.mode] at hb
  obtain rfl : b₁ = (b.handle env' registry link).1 := by simpa using hb.symm.trans hsame
  exact ⟨said, hquiet.trans hp, ht⟩

theorem run_sequential_hailed : ∃ s, run (System.step Env.late) (.init 2 2) hailedTwice = some s ∧
    ∃ (link : Link) (registry : Registry), link.chunks.flatten = encodeFrame (ascii "HELLO:A") ∧
      ∃ new, Produced (Env.calm .disabled) (.init 64 120) new
          ((Ingest.init 64 120).handle (Env.calm .disabled) registry link).1 ∧
        new.map Call.timeless = s.said 0 := by
  have hview : (run (System.step Env.late) (.init 2 2) hailedTwice).map System.glance =
      some glanced := by
    decide +kernel
  have hphase : (run (System.step Env.late) (.init 2 2) hailedTwice).map (fun s ↦
    (s.conns 0).map Connection.phase) =
      some (some .closed) := by decide +kernel
  obtain ⟨s, hs, hglance⟩ := Option.map_eq_some_iff.mp hview
  obtain ⟨-, conn, hconn, hpeer, hnonce⟩ := glance_conn hglance
  have hclosed : conn.phase = .closed := by simpa [hs, hconn] using hphase
  obtain ⟨link, registry, -, -, -, hbytes, hhandle⟩ :=
    run_sequential hs hconn hclosed (by simp [inputs, hailedTwice])
  refine ⟨s, hs, link, registry, hbytes, hhandle _ _ ⟨rfl, rfl, rfl⟩ ?_⟩
  rw [hpeer]
  decide +kernel

end Linear

end OpusFleet.Server
