import OpusFleet.Server.Limiter
import OpusFleet.Server.Sessions

namespace OpusFleet.Server

open Python Library Protocol Auth

def Message.timeless (m : Message) : Message := { m with value := m.value.timeless }

/-- Two limiters that only the times of what they let in set apart. -/
structure Auth.ConnectionLimiter.Alike (l l' : ConnectionLimiter) : Prop where
  maxConcurrent : l.maxConcurrent = l'.maxConcurrent
  maxPerMinute : l.maxPerMinute = l'.maxPerMinute
  live : l.live = l'.live
  rejected : l.rejected = l'.rejected

structure Ingest.Alike (a b : Ingest) : Prop where
  calls : a.calls.map Call.timeless = b.calls.map Call.timeless
  queue : a.queue.map Message.timeless = b.queue.map Message.timeless
  dispatched : a.dispatched = b.dispatched
  ticks : a.ticks = b.ticks
  connections : a.connections = b.connections
  frames : a.frames = b.frames
  bytes : a.bytes = b.bytes
  dropped : a.dropped = b.dropped
  online : a.online.keys = b.online.keys
  limiter : a.limiter.Alike b.limiter
  denied : a.denied = b.denied
  unauthenticated : a.unauthenticated = b.unauthenticated

def Env.at (env : Env) (clock : ℕ → Time) : Env := { env with clock := clock }

section Limiter

variable {l l' : ConnectionLimiter}

theorem Auth.ConnectionLimiter.Alike.allow (h : l.Alike l') (ip : Str) {time time' : Time}
    (hlets : (l.allow ip time).2.1 = (l'.allow ip time').2.1) :
    (l.allow ip time).1.Alike (l'.allow ip time').1 := by
  have hlive : l.liveOf ip = l'.liveOf ip := by
    rw [ConnectionLimiter.liveOf, ConnectionLimiter.liveOf, h.live]
  obtain ⟨-, -, hok, hstate⟩ | ⟨-, hok, hstate⟩ := allow_cases l ip time
  · obtain ⟨-, -, hok', hstate'⟩ | ⟨-, hok', -⟩ := allow_cases l' ip time'
    · rw [hstate, hstate', hlive, h.live]
      exact ⟨h.maxConcurrent, h.maxPerMinute, rfl, h.rejected⟩
    · rw [hok, hok'] at hlets
      cases hlets
  · obtain ⟨-, -, hok', -⟩ | ⟨-, hok', hstate'⟩ := allow_cases l' ip time'
    · rw [hok, hok'] at hlets
      cases hlets
    · rw [hstate, hstate', hlive, h.live]
      exact ⟨h.maxConcurrent, h.maxPerMinute, rfl, congrArg (· + 1) h.rejected⟩

theorem Auth.ConnectionLimiter.Alike.release (h : l.Alike l') (ip : Str) :
    (l.release ip).Alike (l'.release ip) := by
  rw [ConnectionLimiter.release, ConnectionLimiter.release, h.live]
  split
  iterate 2 exact h
  iterate 2 exact { h with live := rfl }

end Limiter

namespace Ingest

section Simulation

variable {env : Env} {clock : ℕ → Time} {a b : Ingest}

theorem Alike.refl (a : Ingest) : Alike a a :=
  ⟨rfl, rfl, rfl, rfl, rfl, rfl, rfl, rfl, rfl, ⟨rfl, rfl, rfl, rfl⟩, rfl, rfl⟩

theorem Alike.tick (h : Alike a b) : Alike a.tick b.tick :=
  { h with ticks := congrArg (· + 1) h.ticks }

theorem Alike.produce (h : Alike a b) (topic : Topic) (key : Str) {value value' : Payload}
    (hvalue : value.timeless = value'.timeless) :
    Alike (a.produce env topic key value) (b.produce (env.at clock) topic key value') := by
  have hlength : a.calls.length = b.calls.length := by simpa using congrArg List.length h.calls
  have hcall : Call.timeless ⟨topic, key, value⟩ = Call.timeless ⟨topic, key, value'⟩ := by
    simp only [Call.timeless, hvalue]
  have hmessage : (Call.message ⟨topic, key, value⟩).timeless =
      (Call.message ⟨topic, key, value'⟩).timeless := by
    simp only [Message.timeless, Call.message, hvalue]
  rw [Ingest.produce, Ingest.produce, Env.at, hlength]
  cases env.broker b.calls.length with
  | enqueued =>
    exact { h with
      calls := by simp [h.calls, hcall]
      queue := by simp [h.queue, hmessage] }
  | bufferError | kafkaException =>
    exact { h with
      calls := by simp [h.calls, hcall]
      dropped := congrArg (· + 1) h.dropped }

theorem Alike.hello (h : Alike a b) (peer : Peer) (imei : Str) :
    Alike (a.hello env peer imei) (b.hello (env.at clock) peer imei) := by
  have honline : (a.online.set imei (env.clock a.ticks)).keys =
      (b.online.set imei (clock b.ticks)).keys := by
    rw [Dict.keys_set, Dict.keys_set, h.online]
  have hset : Alike { a with online := a.online.set imei (env.clock a.ticks) }
      { b with online := b.online.set imei (clock b.ticks) } := { h with online := honline }
  exact hset.tick.tick.produce .events imei rfl

theorem Alike.stat (h : Alike a b) (imei : Str) (entries : List (Str × Value)) :
    Alike (a.stat env imei entries) (b.stat (env.at clock) imei entries) :=
  h.tick.produce .stat imei (by rw [statReport_timeless, statReport_timeless])

theorem Alike.audio (h : Alike a b) (imei : Str) (payload : Bytes) :
    Alike (a.audio env imei payload) (b.audio (env.at clock) imei payload) := by
  have hcounted : Alike { a with frames := a.frames + 1, bytes := a.bytes + payload.length }
      { b with frames := b.frames + 1, bytes := b.bytes + payload.length } :=
    { h with
      frames := congrArg (· + 1) h.frames
      bytes := congrArg (· + payload.length) h.bytes }
  exact hcounted.produce .audio imei rfl

theorem Alike.cleanup (h : Alike a b) (peer : Peer) (imei : Str) :
    Alike (a.cleanup env peer imei) (b.cleanup (env.at clock) peer imei) := by
  have hleft : Alike { a with limiter := a.limiter.release peer.ip, online := a.online.pop imei }
      { b with limiter := b.limiter.release peer.ip, online := b.online.pop imei } :=
    { h with
      online := by rw [Dict.keys_pop, Dict.keys_pop, h.online]
      limiter := h.limiter.release peer.ip }
  exact hleft.tick.produce .events imei rfl

/-- The same outcome on both sides, and nothing but times between the states. -/
def Equal {α : Type} (p q : Ingest × α) : Prop := Alike p.1 q.1 ∧ p.2 = q.2

theorem Equal.parts {α : Type} {p q : Ingest × α} (h : Equal p q) :
    ∃ a b out, p = (a, out) ∧ q = (b, out) ∧ Alike a b :=
  ⟨p.1, q.1, p.2, rfl, Prod.ext rfl h.2.symm, h.1⟩

variable (env clock) (peer : Peer) (authed : Bool)

theorem dispatch_equal (h : Alike a b) (imei : Str) (payload : Bytes) :
    Equal (a.dispatch env peer authed imei payload)
      (b.dispatch (env.at clock) peer authed imei payload) := by
  have hlimit : (env.at clock).limit = env.limit := rfl
  rw [dispatch, dispatch, hlimit]
  split
  iterate 3 exact ⟨h, rfl⟩
  · split
    · exact ⟨h, rfl⟩
    · exact ⟨h.hello peer _, rfl⟩
  · exact ⟨h.stat imei _, rfl⟩
  · exact ⟨h.tick, rfl⟩
  · exact ⟨h.audio imei payload, rfl⟩

theorem frameLoop_equal (frames : List Bytes) (h : Alike a b) (imei : Str) :
    Equal (a.frameLoop env peer authed imei frames)
      (b.frameLoop (env.at clock) peer authed imei frames) := by
  induction frames generalizing a b imei with
  | nil => exact ⟨h, rfl⟩
  | cons f frames ih =>
    have hlog : Alike { a with dispatched := a.dispatched ++ [f] } { b with dispatched :=
      b.dispatched ++ [f] } :=
      { h with dispatched := congrArg (· ++ [f]) h.dispatched }
    obtain ⟨a₁, b₁, out, ha, hb, hstates⟩ :=
      (dispatch_equal env clock peer authed hlog imei f).parts
    rw [frameLoop, frameLoop, ha, hb]
    cases out with
    | error e => exact ⟨hstates, rfl⟩
    | ok id => exact ih hstates id

theorem mainLoop_equal (ending : Ending) (chunks : List Bytes) (h : Alike a b) (imei : Str)
    (buf : Bytes) :
    Equal (a.mainLoop env peer authed ending imei buf chunks)
      (b.mainLoop (env.at clock) peer authed ending imei buf chunks) := by
  induction chunks generalizing a b imei buf with
  | nil => exact ⟨h, rfl⟩
  | cons chunk chunks ih =>
    rw [mainLoop, mainLoop]
    split
    · exact ⟨h, rfl⟩
    · obtain ⟨a₁, b₁, ⟨id, raised⟩, ha, hb, hstates⟩ :=
        (frameLoop_equal env clock peer authed (iterFrames (buf ++ chunk)).1 h imei).parts
      rw [ha, hb]
      cases raised with
      | none => exact ih hstates id _
      | some e => exact ⟨hstates, rfl⟩

theorem session_equal (ending : Ending) (chunks : List Bytes) (h : Alike a b) (imei : Str)
    (buf : Bytes) :
    Equal (a.session env peer authed ending imei buf chunks)
      (b.session (env.at clock) peer authed ending imei buf chunks) := by
  obtain ⟨a₁, b₁, ⟨id, raised⟩, ha, hb, hstates⟩ :=
    (mainLoop_equal env clock peer authed ending chunks h imei buf).parts
  rw [session, session, ha, hb]
  exact ⟨hstates.cleanup peer id, rfl⟩

theorem Alike.allow (h : Alike a b)
    (hlets : (a.allow env peer).2 = (b.allow (env.at clock) peer).2) :
    Equal (a.allow env peer) (b.allow (env.at clock) peer) := by
  have hlimiter := h.limiter.allow peer.ip hlets
  have hcounted : Alike
      { a with
        limiter := (a.limiter.allow peer.ip (env.clock a.ticks)).1
        connections := a.connections + if (a.allow env peer).2 then 1 else 0 }
      { b with
        limiter := (b.limiter.allow peer.ip (clock b.ticks)).1
        connections := b.connections + if (b.allow (env.at clock) peer).2 then 1 else 0 } :=
    { h with
      limiter := hlimiter
      connections := by rw [h.connections, hlets] }
  exact ⟨hcounted.tick, hlets⟩

theorem handshake_equal (h : Alike a b) (registry : Registry) (link : Link) :
    Equal (a.handshake env registry link) (b.handshake (env.at clock) registry link) := by
  have hcheck : checkFrame (env.at clock) = checkFrame env := rfl
  have hmode : (env.at clock).mode = env.mode := rfl
  rw [handshake, handshake, hcheck, hmode]
  split
  · exact ⟨h, rfl⟩
  · split
    · exact ⟨h, rfl⟩
    · split
      · exact ⟨h, rfl⟩
      · split
        · exact ⟨h, rfl⟩
        · split
          · split <;> exact ⟨h, rfl⟩
          · exact ⟨{ h with unauthenticated := congrArg (· + 1) h.unauthenticated }, rfl⟩

theorem handle_equal (h : Alike a b) (registry : Registry) (link : Link)
    (hlets : (a.allow env link.peer).2 = (b.allow (env.at clock) link.peer).2) :
    Equal (a.handle env registry link) (b.handle (env.at clock) registry link) := by
  obtain ⟨a₁, b₁, ok, ha, hb, hallowed⟩ := (h.allow env clock link.peer hlets).parts
  rw [handle, handle, ha, hb]
  dsimp only
  split
  · exact ⟨hallowed, rfl⟩
  · obtain ⟨a₂, b₂, ⟨sent, out⟩, ha₂, hb₂, hshaken⟩ :=
      (handshake_equal env clock hallowed registry link).parts
    rw [ha₂, hb₂]
    cases out with
    | ok out =>
      obtain ⟨a₃, b₃, raised, ha₃, hb₃, hended⟩ :=
        (session_equal env clock link.peer out.1.authed link.ending out.2 hshaken out.1.imei
          out.1.leftover).parts
      dsimp only
      rw [ha₃, hb₃]
      exact ⟨hended, rfl⟩
    | error e =>
      dsimp only
      split
      · have hdenied : Alike { a₂ with denied := a₂.denied + 1 } { b₂ with denied :=
          b₂.denied + 1 } :=
          { hshaken with denied := congrArg (· + 1) hshaken.denied }
        exact ⟨hdenied.cleanup link.peer _, rfl⟩
      · exact ⟨hshaken.cleanup link.peer _, rfl⟩

end Simulation

section Denied

variable {env : Env} {registry registry' : Registry} {link : Link}

/-- Whatever AUTH frame the stream begins with is refused: the registry can be read, and what it
has for the id does not match. -/
def Denies (env : Env) (registry : Registry) (link : Link) : Prop :=
  ∀ payload leftover chunks id mac, readFrame link.ending [] link.chunks =
    .ok ((payload, leftover), chunks) →
    classify env.limit payload = .ok (.auth id mac) →
    ∃ key, registry id = .ok key ∧ verify env.hmac (key.getD []) link.nonce mac = false

/-- The first frame is judged alike by any two registries that refuse it. -/
theorem checkFrame_eq (h : Denies env registry link) (h' : Denies env registry' link)
    {payload leftover : Bytes} {chunks : List Bytes}
    (hread : readFrame link.ending [] link.chunks = .ok ((payload, leftover), chunks)) :
    checkFrame env registry link.nonce link.peer payload leftover =
      checkFrame env registry' link.nonce link.peer payload leftover := by
  rw [checkFrame, checkFrame]
  split
  · rfl
  · next id mac hclassify =>
    obtain ⟨key, hkey, hverify⟩ := h _ _ _ id mac hread hclassify
    obtain ⟨key', hkey', hverify'⟩ := h' _ _ _ id mac hread hclassify
    simp only [hkey, hkey', hverify, hverify']
  · rfl

theorem handshake_eq (h : Denies env registry link) (h' : Denies env registry' link)
    (ing : Ingest) :
    ing.handshake env registry link = ing.handshake env registry' link := by
  rw [handshake, handshake]
  split
  · rfl
  · split
    · rfl
    · split
      · rfl
      · next hread => rw [checkFrame_eq h h' hread]

/-- Refusals cannot be told apart. Two registries that refuse the AUTH frame, if one comes, lead to
the same result at the same moments; at other moments too, but for time stamps, if the limiter lets
the connection in or not alike. -/
theorem handle_denies (h : Denies env registry link) (h' : Denies env registry' link) :
    (∀ ing : Ingest, ing.handle env registry link = ing.handle env registry' link) ∧
      ∀ clock a b, Alike a b → (a.allow env link.peer).2 = (b.allow (env.at clock) link.peer).2 →
        Alike (a.handle env registry link).1 (b.handle (env.at clock) registry' link).1 ∧
          (a.handle env registry link).2 = (b.handle (env.at clock) registry' link).2 := by
  have hhandle (ing : Ingest) : ing.handle env registry link = ing.handle env registry' link := by
    rw [handle, handle]
    simp only [handshake_eq h h']
  refine ⟨hhandle, fun clock a b hab hlets ↦ ?_⟩
  rw [hhandle a]
  exact handle_equal env clock hab registry' link hlets

def guess : Link := .lone [encodeFrame (ascii "AUTH:A:" ++ List.replicate 64 102)]

theorem guess_denied {key : Option Bytes}
    (hkey : verify .echo (key.getD []) guess.nonce (List.replicate 64 102) = false) :
    Denies (Env.calm .required) (fun _ ↦ .ok key) guess := by
  intro payload leftover chunks id mac hread hclassify
  have hfirst : readFrame guess.ending [] guess.chunks =
      .ok ((ascii "AUTH:A:" ++ List.replicate 64 102, []), []) := by rfl
  obtain ⟨⟨rfl, rfl⟩, rfl⟩ : (ascii "AUTH:A:" ++ List.replicate 64 102 = payload ∧ [] = leftover) ∧
      [] = chunks := by
    simpa using hfirst.symm.trans hread
  have hauth : classify 1000 (ascii "AUTH:A:" ++ List.replicate 64 102) =
      .ok (.auth (lit "A") (List.replicate 64 102)) := by rfl
  obtain ⟨rfl, rfl⟩ : lit "A" = id ∧ List.replicate 64 102 = mac := by
    simpa using hauth.symm.trans hclassify
  exact ⟨key, rfl, hkey⟩

theorem handle_denies_guess :
    (Ingest.init 64 120).handle (Env.calm .required) Registry.none guess =
        (Ingest.init 64 120).handle (Env.calm .required) (fun _ ↦ .ok (some [17])) guess ∧
      Alike ((Ingest.init 64 120).handle (Env.calm .required) Registry.none guess).1
        ((Ingest.init 64 120).handle ((Env.calm .required).at fun n ↦ n)
          (fun _ ↦ .ok (some [17])) guess).1 ∧
      ((Ingest.init 64 120).handle (Env.calm .required) Registry.none guess).2 =
        (challengeFrame guess.nonce ++ denyFrame, none) := by
  have hunknown : Denies (Env.calm .required) Registry.none guess := guess_denied (by decide)
  have hwrong : Denies (Env.calm .required) (fun _ ↦ .ok (some [17])) guess :=
    guess_denied (by decide)
  obtain ⟨hsame, hlater⟩ := handle_denies hunknown hwrong
  exact ⟨hsame _, (hlater _ _ _ (.refl _) (by decide +kernel)).1, by rfl⟩

end Denied

end Ingest

end OpusFleet.Server
