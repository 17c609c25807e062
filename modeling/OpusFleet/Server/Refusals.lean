import OpusFleet.Server.Api
import OpusFleet.Server.Locality

namespace OpusFleet.Server

open Python Library Protocol Auth Library.Runs

def Event.conn : Event → ℕ
  | .accept c _ _ => c
  | .wake c _ => c

namespace System

/-- The input ends connection `c` before its handshake has let it in. -/
def Refuses (env : Env) (s : System) (c : ℕ) (input : Input) : Prop :=
  ∃ conn, s.conns c = some conn ∧ conn.phase.Outside ∧ (conn.farewell env input).isSome = true

def lets (env : Env) (s : System) : Event → Bool
  | .accept _ peer _ => (s.ing.allow env peer).2
  | .wake _ _ => true

/-- The system beside itself without connection `c`. At each event the world shows both the same,
and the two are compared as long as the limiter lets the same connections in. -/
def abreast (env : Env) (c : ℕ) (p : System × System) (e : Event) : Option (System × System) :=
  if e.conn = c then (p.1.step env e).map fun s ↦ (s, p.2)
  else if p.1.lets env e = p.2.lets (env.seenFrom p.1.ing p.2.ing) e then
    (p.1.step env e).bind fun s ↦
      (p.2.step (env.seenFrom p.1.ing p.2.ing) e).map fun s' ↦ (s, s')
  else none

end System

/-- Connection `c` adds no message to any topic and changes nobody's presence, and without it the
message log and what the API makes of it are the same. -/
structure Traceless (env : Env) (start : System) (c : ℕ) (es : List Event) : Prop where
  silent : Throughout (System.step env) (fun s e s' ↦ e.conn = c →
    s'.ing.queue = s.ing.queue ∧ s'.ing.online = s.ing.online) start es
  unnoticed : ∀ s s', run (System.abreast env c) (start, start) es = some (s, s') →
    s'.ing.queue = s.ing.queue ∧ ∀ depth limit clock,
      Api.consumeState depth limit clock .empty s'.ing.queue =
        Api.consumeState depth limit clock .empty s.ing.queue

section Hushed

variable {env : Env} {peer : Peer} {ing : Ingest} {conn : Connection} {p : Ingest × Phase}

def Hushed (env : Env) (peer : Peer) (ing : Ingest) (bye : Option Str)
    (p : Ingest × Phase) : Prop :=
  (bye = none ∧ p.1.queue = ing.queue ∧ p.1.online = ing.online) ∨
    bye.isSome = true ∧ p = (ing.cleanup env peer (lit "unknown"), .closed)

theorem hushed_none {ing' : Ingest} {phase : Phase} (hqueue : ing'.queue = ing.queue)
    (honline : ing'.online = ing.online) : Hushed env peer ing none (ing', phase) :=
  .inl ⟨rfl, hqueue, honline⟩

theorem refuse_hushed (e : Exc) : Hushed env peer ing (quits e) (ing.refuse env peer e) := by
  rw [quits, Ingest.refuse]
  split
  · exact hushed_none rfl rfl
  · exact .inr ⟨rfl, rfl⟩

theorem answer_hushed (registry : Registry) {buf payload leftover : Bytes}
    (hfirst : Ingest.firstFrame buf = some (payload, .ok leftover)) :
    Hushed env conn.peer ing ((conn.refusal env registry buf).bind quits)
      (ing.answer env registry conn payload leftover) := by
  rw [Connection.refusal, hfirst]
  dsimp only
  rw [Ingest.answer]
  cases hcheck : Ingest.checkFrame env registry conn.nonce conn.peer payload leftover with
  | error e => exact refuse_hushed e
  | ok accepted =>
    dsimp only
    split
    · cases hok : Ingest.okFrame (accepted.claimed.getD []) with
      | error e => exact refuse_hushed e
      | ok reply => exact hushed_none rfl rfl
    · exact hushed_none rfl rfl

theorem resume_hushed (houtside : conn.phase.Outside) {input : Input}
    (h : ing.resume env conn input = some p) :
    Hushed env conn.peer ing (conn.farewell env input) p := by
  have hgone {q : Ingest × Phase} (h : some q = some p)
      (hq : Hushed env conn.peer ing (conn.farewell env input) q) :
      Hushed env conn.peer ing (conn.farewell env input) p := Option.some.inj h ▸ hq
  cases input with
  | drained ok =>
    cases hc : conn.phase with
    | challenging | greeting accepted =>
      simp only [Ingest.resume, hc] at h
      cases ok with
      | true => exact hgone h (.inl ⟨by simp [Connection.farewell, hc], rfl, rfl⟩)
      | false => exact hgone h (.inr ⟨by simp [Connection.farewell, hc], rfl⟩)
    | denying =>
      simp only [Ingest.resume, hc] at h
      exact hgone h (.inr ⟨by simp [Connection.farewell, hc], rfl⟩)
    | reading buf | serving authed imei buf | closed => simp [Ingest.resume, hc] at h
  | recv chunk registry =>
    by_cases hchunk : chunk = []
    · simp [Ingest.resume, hchunk] at h
    cases hc : conn.phase with
    | reading buf =>
      have hfarewell : conn.farewell env (.recv chunk registry) =
          (conn.refusal env registry (buf ++ chunk)).bind quits := by
            simp only [Connection.farewell, hc]
      simp only [Ingest.resume, hc, if_neg hchunk] at h
      apply hgone (q := p) rfl
      rw [hfarewell]
      split at h
      · next hfirst =>
        rw [Connection.refusal, hfirst]
        exact Option.some.inj h ▸ hushed_none rfl rfl
      · next hfirst =>
        rw [Connection.refusal, hfirst]
        exact Option.some.inj h ▸ refuse_hushed _
      · next hfirst => exact Option.some.inj h ▸ answer_hushed registry hfirst
    | serving authed imei buf => exact absurd hc (houtside authed imei buf)
    | challenging | greeting accepted | denying | closed => simp [Ingest.resume, hc, hchunk] at h
  | ended ending =>
    cases hc : conn.phase with
    | reading buf =>
      simp only [Ingest.resume, hc] at h
      apply hgone h
      simp only [Connection.farewell, hc]
      exact refuse_hushed _
    | serving authed imei buf => exact absurd hc (houtside authed imei buf)
    | challenging | greeting accepted | denying | closed => simp [Ingest.resume, hc] at h

end Hushed

section Decided

variable {env : Env} {s s' : System} {c : ℕ} {e : Event}

theorem step_conns (hs : System.step env s e = some s') (hc : c ≠ e.conn) :
    s'.conns c = s.conns c := by
  obtain ⟨c', peer, nonce, ing', phase, rfl, -, rfl, -⟩ |
    ⟨c', input, conn', ing', phase, rfl, -, -, rfl⟩ := step_cases hs
  · exact (settle_conns _ _ _ _).trans (if_neg hc)
  · exact (settle_conns _ _ _ _).trans (if_neg hc)

/-- The handshake of connection `c` is over. -/
def System.Decided (s : System) (c : ℕ) : Prop :=
  ∃ conn, s.conns c = some conn ∧ (conn.phase = .closed ∨ ¬ conn.phase.Outside)

theorem decided_step (h : s.Decided c) (hs : System.step env s e = some s') : s'.Decided c := by
  obtain ⟨conn, hconn, hphase⟩ := h
  by_cases hc : c = e.conn
  swap
  · exact ⟨conn, (step_conns hs hc).trans hconn, hphase⟩
  subst hc
  obtain ⟨c', peer, nonce, ing', phase, rfl, hfresh, rfl, -⟩ |
    ⟨c', input, conn', ing', phase, rfl, hconn', hr, rfl⟩ := step_cases hs
  · have hnone : (none : Option Connection) = some conn := hfresh.symm.trans hconn
    cases hnone
  · obtain rfl : conn = conn' := Option.some.inj (hconn.symm.trans hconn')
    refine ⟨{ conn with phase := phase }, (settle_conns _ _ _ _).trans (if_pos rfl), ?_⟩
    rcases hphase with hclosed | hinside
    · exact absurd hclosed (resume_unclosed hr)
    · cases resume_turn hr with
      | waits houtside => exact absurd houtside hinside
      | leaves houtside => exact absurd houtside hinside
      | serves => exact .inr fun houtside ↦ houtside _ _ _ rfl
      | closes => exact .inl rfl

theorem decided_run {es : List Event} (h : s.Decided c)
    (hrun : run (System.step env) s es = some s') :
    s'.Decided c :=
  run_induction (P := fun _ _ _ ↦ True) (I := fun _ s ↦ s.Decided c) h
    (fun _ _ _ _ _ h _ hs ↦ decided_step h hs) (throughout_true es) hrun

theorem refuses_not_decided {input : Input} (h : s.Refuses env c input) : ¬ s.Decided c := by
  obtain ⟨conn, hconn, houtside, hends⟩ := h
  intro hdecided
  obtain ⟨conn', hconn', hphase⟩ := hdecided
  obtain rfl : conn = conn' := Option.some.inj (hconn.symm.trans hconn')
  rcases hphase with hclosed | hinside
  · cases input <;> simp [Connection.farewell, hclosed] at hends
  · exact hinside houtside

theorem silent_step (hs : System.step env s e = some s') (hundecided : ¬ s'.Decided e.conn) :
    s'.ing.queue = s.ing.queue ∧ s'.ing.online = s.ing.online := by
  obtain ⟨c, peer, nonce, ing', phase, rfl, hfresh, rfl, hquiet, honline, -⟩ |
    ⟨c, input, conn, ing', phase, rfl, hconn, hr, rfl⟩ := step_cases hs
  · have hqueue : ing'.queue = s.ing.queue := by simpa [delivered] using hquiet.queue
    exact ⟨hqueue, honline⟩
  · have hnow : (s.settle c { conn with phase := phase } ing').conns c =
        some { conn with phase := phase } := by
      rw [settle_conns, if_pos rfl]
    have houtside : conn.phase.Outside := by
      by_contra hinside
      exact hundecided (decided_step ⟨conn, hconn, .inr hinside⟩ hs)
    rcases resume_hushed houtside hr with ⟨-, hqueue, honline⟩ | ⟨-, hclosed⟩
    · exact ⟨hqueue, honline⟩
    · exact absurd ⟨_, hnow, .inl (congrArg Prod.snd hclosed)⟩ hundecided

theorem closed_still {conn : Connection} (hconn : s.conns e.conn = some conn)
    (hclosed : conn.phase = .closed) :
    System.step env s e = none := by
  cases e with
  | accept c peer nonce =>
    have hc : s.conns c = some conn := hconn
    rw [System.step, hc]
  | wake c input =>
    have hc : s.conns c = some conn := hconn
    simp only [System.step, hc, resume_closed hclosed, Option.map_none]

end Decided

section Traceless

variable {env : Env} {start m s : System} {c : ℕ} {input : Input} {before after : List Event}

theorem refuses_step (h : m.Refuses env c input) (hs : System.step env m (.wake c input) = some s) :
    ∃ conn, m.conns c = some conn ∧ s.ing = m.ing.cleanup env conn.peer (lit "unknown") ∧
      s.conns c = some { conn with phase := .closed } := by
  obtain ⟨conn, hconn, houtside, hends⟩ := h
  simp only [System.step, hconn, Option.map_eq_some_iff] at hs
  obtain ⟨p, hr, rfl⟩ := hs
  rcases resume_hushed houtside hr with ⟨hnone, -⟩ | ⟨-, rfl⟩
  · rw [hnone] at hends
    cases hends
  · exact ⟨conn, hconn, rfl, by rw [settle_conns, if_pos rfl]⟩

theorem cleanup_queue (env : Env) (peer : Peer) (ing : Ingest) (imei : Str) :
    (ing.cleanup env peer imei).queue = ing.queue ↔ env.broker ing.calls.length ≠ .enqueued := by
  rw [Ingest.cleanup, Ingest.produce]
  dsimp only [Ingest.tick]
  cases env.broker ing.calls.length <;> simp

theorem cleanup_online (env : Env) (peer : Peer) (ing : Ingest) (imei : Str) :
    (ing.cleanup env peer imei).online = ing.online ↔ ing.online.get imei = none := by
  rw [Ingest.cleanup, produce_online]
  exact Dict.pop_eq_self _ _

theorem silent_after {conn : Connection} (hconn : m.conns c = some conn)
    (hclosed : conn.phase = .closed)
    (after : List Event) : Throughout (System.step env) (fun s e s' ↦ e.conn = c →
      s'.ing.queue = s.ing.queue ∧ s'.ing.online = s.ing.online) m after := by
  intro before e after' m₁ m₂ he hb hs hc
  subst hc
  have hstays : ∃ conn, m₁.conns e.conn = some conn ∧ conn.phase = .closed := by
    refine run_induction (P := fun _ _ _ ↦ True)
      (I := fun _ s ↦ ∃ conn, s.conns e.conn = some conn ∧ conn.phase = .closed) ⟨conn,
        hconn, hclosed⟩ ?_
      (throughout_true before) hb
    intro _ s e' s' _ ⟨conn, hconn, hclosed⟩ _ hs
    have hother : e.conn ≠ e'.conn := by
      intro heq
      rw [closed_still (heq ▸ hconn) hclosed] at hs
      cases hs
    exact ⟨conn, (step_conns hs hother).trans hconn, hclosed⟩
  obtain ⟨conn', hconn', hclosed'⟩ := hstays
  rw [closed_still hconn' hclosed'] at hs
  cases hs

/-- All that a refused connection ever does is one goodbye for "unknown". -/
theorem silent_iff (hbefore : run (System.step env) start before = some m)
    (hrefuses : m.Refuses env c input)
    (hrun : run (System.step env) start (before ++ .wake c input :: after) = some s) :
    Throughout (System.step env) (fun s e s' ↦ e.conn = c →
        s'.ing.queue = s.ing.queue ∧ s'.ing.online = s.ing.online) start
          (before ++ .wake c input :: after) ↔
      env.broker m.ing.calls.length ≠ .enqueued ∧ m.ing.online.get (lit "unknown") = none := by
  obtain ⟨m', m₁, hm', hs, -⟩ := run_cut hrun
  obtain rfl : m = m' := Option.some.inj (hbefore.symm.trans hm')
  obtain ⟨conn, -, hing, hclosed⟩ := refuses_step hrefuses hs
  rw [← cleanup_queue env conn.peer m.ing (lit "unknown"),
    ← cleanup_online env conn.peer m.ing (lit "unknown"), ← hing]
  constructor
  · intro hsilent
    exact hsilent before (.wake c input) after m m₁ rfl hbefore hs rfl
  · intro hstill
    apply throughout_append
    · intro before' e after' m₂ m₃ he hb hs' hc
      apply silent_step hs'
      intro hdecided
      rw [he] at hbefore
      obtain ⟨m₄, m₅, hm₄, hm₅, hrest⟩ := run_cut hbefore
      obtain rfl : m₂ = m₄ := Option.some.inj (hb.symm.trans hm₄)
      obtain rfl : m₃ = m₅ := Option.some.inj (hs'.symm.trans hm₅)
      exact refuses_not_decided hrefuses (hc ▸ decided_run hdecided hrest)
    · intro m₂ hm₂
      obtain rfl : m = m₂ := Option.some.inj (hbefore.symm.trans hm₂)
      have hnext {m₃ : System} (hs' : System.step env m (.wake c input) = some m₃) : m₁ = m₃ :=
        Option.some.inj (hs.symm.trans hs')
      apply throughout_cons
      · intro m₃ hs' _
        exact hnext hs' ▸ hstill
      · intro m₃ hs'
        exact hnext hs' ▸ silent_after hclosed rfl after

/-- The two sides of `abreast` agree on all connections but `c`. -/
def Besides (c : ℕ) (s s' : System) : Prop := ∀ c', c' ≠ c → s'.conns c' = s.conns c'

theorem besides_step {s' m' : System} {e : Event} (h : Besides c s s') (hc : e.conn ≠ c)
    (hlets : s.lets env e = s'.lets (env.seenFrom s.ing s'.ing) e)
    (hs : System.step env s e = some m)
    (hs' : System.step (env.seenFrom s.ing s'.ing) s' e = some m') :
    Besides c m m' ∧ ∃ sent, m.ing.queue = s.ing.queue ++ sent ∧
    m'.ing.queue = s'.ing.queue ++ sent := by
  have hsame : m'.conns e.conn = m.conns e.conn →
      (∃ sent, m.ing.queue = s.ing.queue ++ sent ∧ m'.ing.queue = s'.ing.queue ++ sent) →
      Besides c m m' ∧ ∃ sent, m.ing.queue = s.ing.queue ++ sent ∧
      m'.ing.queue = s'.ing.queue ++ sent := by
    intro hconns hqueue
    refine ⟨?_, hqueue⟩
    intro c' hc'
    by_cases he : c' = e.conn
    · exact he ▸ hconns
    · rw [step_conns hs he, step_conns hs' he, h c' hc']
  cases e with
  | accept c' peer nonce =>
    have hconns : s'.conns c' = s.conns c' := h c' hc
    cases hfresh : s.conns c' with
    | some conn => simp [System.step, hfresh] at hs
    | none =>
      rw [hfresh] at hconns
      simp only [System.step, hfresh, Option.some.injEq] at hs
      simp only [System.step, hconns, Option.some.injEq] at hs'
      simp only [System.lets] at hlets
      subst hs hs'
      apply hsame
      · simp only [System.settle, Event.conn, Function.update_self, hlets]
        rfl
      · have hquiet := (allow_silent env s.ing peer).1.queue
        have hquiet' := (allow_silent (env.seenFrom s.ing s'.ing) s'.ing peer).1.queue
        exact ⟨[], hquiet, hquiet'⟩
  | wake c' input =>
    have hconns : s'.conns c' = s.conns c' := h c' hc
    cases hconn : s.conns c' with
    | none => simp [System.step, hconn] at hs
    | some conn =>
      rw [hconn] at hconns
      have hmatched := resume_matched conn (aligned_seenFrom env s.ing s'.ing) input
      simp only [System.step, hconn] at hs
      simp only [System.step, hconns] at hs'
      cases hr : s.ing.resume env conn input with
      | none => simp [hr] at hs
      | some p =>
        rw [hr] at hs hmatched
        cases hr' : s'.ing.resume (env.seenFrom s.ing s'.ing) conn input with
        | none => simp [hr'] at hs'
        | some q =>
          rw [hr'] at hs' hmatched
          obtain ⟨⟨new, sent, n, hmoves, hmoves'⟩, hphase⟩ : Matched s.ing s'.ing p q := by
            cases hmatched with
            | some h => exact h
          obtain rfl := Option.some.inj hs
          obtain rfl := Option.some.inj hs'
          apply hsame
          · simp only [System.settle, Event.conn, Function.update_self, hphase]
          · exact ⟨sent, hmoves.queue, hmoves'.queue⟩

theorem abreast_run {s' : System} {es : List Event}
    (hsilent : Throughout (System.step env) (fun s e s' ↦ e.conn = c →
      s'.ing.queue = s.ing.queue) start es)
    (hrun : run (System.abreast env c) (start, start) es = some (s, s')) :
    run (System.step env) start es = some s ∧ Besides c s s' ∧ s'.ing.queue = s.ing.queue := by
  induction es using List.reverseRecOn generalizing s s' with
  | nil =>
    obtain ⟨rfl, rfl⟩ : start = s ∧ start = s' := by simpa using hrun
    exact ⟨rfl, fun _ _ ↦ rfl, rfl⟩
  | append_singleton es e ih =>
    obtain ⟨⟨m, m'⟩, hm, hs⟩ := (run_concat _).mp hrun
    obtain ⟨hfull, hbesides, hqueue⟩ := ih hsilent.init hm
    rw [System.abreast] at hs
    dsimp only at hs
    split at hs
    · next hc =>
      obtain ⟨s₁, hstep, hpair⟩ := Option.map_eq_some_iff.mp hs
      obtain ⟨rfl, rfl⟩ : s₁ = s ∧ m' = s' := by simpa using hpair
      refine ⟨run_snoc hfull hstep, ?_, ?_⟩
      · intro c' hc'
        rw [hbesides c' hc', step_conns hstep (hc ▸ hc')]
      · rw [hqueue, hsilent es e [] m s₁ rfl hfull hstep hc]
    · next hc =>
      split at hs
      · next hlets =>
        obtain ⟨s₁, hstep, hrest⟩ := Option.bind_eq_some_iff.mp hs
        obtain ⟨s₂, hstep', hpair⟩ := Option.map_eq_some_iff.mp hrest
        obtain ⟨rfl, rfl⟩ : s₁ = s ∧ s₂ = s' := by simpa using hpair
        obtain ⟨hnext, sent, hsent, hsent'⟩ := besides_step hbesides hc hlets hstep hstep'
        exact ⟨run_snoc hfull hstep, hnext, by rw [hsent, hsent', hqueue]⟩
      · cases hs

/-- A refused connection leaves no trace if and only if the broker takes no goodbye from it and
nobody is online as "unknown" when it comes. -/
theorem refusal_traceless_iff (hbefore : run (System.step env) start before = some m)
    (hrefuses : m.Refuses env c input)
    (hrun : run (System.step env) start (before ++ .wake c input :: after) = some s) :
    Traceless env start c (before ++ .wake c input :: after) ↔
      env.broker m.ing.calls.length ≠ .enqueued ∧ m.ing.online.get (lit "unknown") = none := by
  rw [← silent_iff hbefore hrefuses hrun]
  constructor
  · exact fun h ↦ h.silent
  · intro hsilent
    refine ⟨hsilent, ?_⟩
    intro s₁ s₂ habreast
    obtain ⟨-, -, hqueue⟩ := abreast_run (fun before e after s s' he hb hs hc ↦
      (hsilent before e after s s' he hb hs hc).1) habreast
    exact ⟨hqueue, fun _ _ _ ↦ by rw [hqueue]⟩

end Traceless

section Examples

def Env.clogged : Env := { Env.calm .required with broker := fun _ ↦ .bufferError }

/-- A connection that stays silent until the handshake times out and DENY has been written. -/
def mute : List Event :=
  [.accept 0 (Link.lone []).peer (Link.lone []).nonce, .wake 0 (.drained true),
    .wake 0 (.ended .timeout)]

theorem mute_refused {s : System}
    (hconns : s.conns 0 = some ⟨(Link.lone []).peer, (Link.lone []).nonce, .denying⟩)
    (env : Env) : s.Refuses env 0 (.drained true) :=
  ⟨_, hconns, by simp [Phase.Outside], rfl⟩

theorem refusal_traceless_iff_mute :
    Traceless .clogged (.init 64 120) 0 (mute ++ .wake 0 (.drained true) :: []) := by
  refine (refusal_traceless_iff (show run (System.step .clogged) (.init 64 120) mute =
    some _ from rfl)
    (mute_refused rfl _)
    (show run (System.step .clogged) (.init 64 120) (mute ++ .wake 0 (.drained true) :: []) = some _
      from rfl)).mpr ⟨?_, rfl⟩
  simp [Env.clogged]

/-- A client that only connects, as anyone can, makes the API show a device named "unknown". -/
theorem refused_says_goodbye : ∃ m s,
    run (System.step (Env.calm .required)) (.init 64 120) mute = some m ∧
    m.Refuses (Env.calm .required) 0 (.drained true) ∧
    run (System.step (Env.calm .required)) (.init 64 120)
      (mute ++ .wake 0 (.drained true) :: []) = some s ∧
    (∃ s', run (System.abreast (Env.calm .required) 0) (.init 64 120, .init 64 120)
      (mute ++ .wake 0 (.drained true) :: []) = some (s, s') ∧ s'.ing.queue = []) ∧
    s.ing.queue.length = 1 ∧
    (Api.consumeState 60 1000 (fun _ ↦ 0) .empty s.ing.queue).any
      (fun state ↦ (state.get (lit "unknown")).isSome) = true ∧
    ¬ Traceless (Env.calm .required) (.init 64 120) 0 (mute ++ .wake 0 (.drained true) :: []) := by
  refine ⟨_, _, rfl, mute_refused rfl _, rfl, ⟨_, rfl, rfl⟩, rfl, by decide +kernel, ?_⟩
  intro h
  have hqueue := (h.unnoticed _ _ rfl).1
  have hlength : (0 : ℕ) = 1 := congrArg List.length hqueue
  cases hlength

end Examples

end OpusFleet.Server
