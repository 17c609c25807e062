import OpusFleet.Server.Presence

namespace OpusFleet.Server

open Python Library Protocol Auth Library.Runs Library.Incremental

section Brackets

/-- Every connect event among the calls is followed by a disconnect event for its id, and
every disconnect event comes after a connect event for its id. -/
structure Bracketed (calls : List Call) : Prop where
  closes : ∀ pre call post id, calls = pre ++ call :: post → call.Announces id →
    ∃ bye ∈ post, bye.Retires id
  opens : ∀ pre bye post id, calls = pre ++ bye :: post → bye.Retires id →
    ∃ call ∈ pre, call.Announces id

theorem bracketed_concat {calls : List Call} {bye : Call} {last : Str}
    (hcalls : ∀ call ∈ calls, ∀ id, ¬ call.Retires id) (hbye : bye = disconnectCall last) :
    Bracketed (calls ++ [bye]) ↔
      (∀ call ∈ calls, ∀ id, call.Announces id → id = last) ∧
      ∃ call ∈ calls, call.Announces last := by
  subst hbye
  constructor
  · intro h
    refine ⟨?_, h.opens calls _ [] last rfl (disconnect_retires.mpr rfl)⟩
    intro call hcall id ha
    obtain ⟨pre, post, rfl⟩ := List.append_of_mem hcall
    obtain ⟨c, hc, hr⟩ := h.closes pre call (post ++ [disconnectCall last]) id (by simp) ha
    rcases List.mem_append.mp hc with hc | hc
    · exact absurd hr (hcalls c (by simp [hc]) id)
    · obtain rfl := List.mem_singleton.mp hc
      exact (disconnect_retires.mp hr).symm
  · intro ⟨hlast, hopened⟩
    refine ⟨?_, ?_⟩
    · intro pre call post id he ha
      obtain ⟨-, rfl, -⟩ | ⟨post', rfl, hcut⟩ := concat_eq_cut he
      · exact absurd ha disconnect_not_announces
      · refine ⟨disconnectCall last, by simp, disconnect_retires.mpr ?_⟩
        exact (hlast call (by simp [hcut]) id ha).symm
    · intro pre c post id he hr
      obtain ⟨rfl, rfl, -⟩ | ⟨post', -, hcut⟩ := concat_eq_cut he
      · exact disconnect_retires.mp hr ▸ hopened
      · exact absurd hr (hcalls c (by simp [hcut]) id)

end Brackets

section Taken

variable (limit : ℕ) (peer : Peer) (authed : Bool)

/-- The ids of the HELLO frames that a socket acts on, from `imei` on. -/
def taken : Str → List Bytes → List Str
  | _, [] => []
  | imei, f :: fs =>
    if raises limit f then []
    else
      match classify limit f with
      | .ok (.hello id) => if authed ∧ id ≠ imei then taken imei fs else id :: taken id fs
      | _ => taken imei fs

theorem taken_cons (imei : Str) {f : Bytes} (fs : List Bytes) (hr : raises limit f = false) :
    (∃ id, classify limit f = .ok (.hello id) ∧
      emits limit peer authed imei f = some (id, connectCall id peer) ∧
      taken limit authed imei (f :: fs) = id :: taken limit authed id fs) ∨
    taken limit authed imei (f :: fs) = taken limit authed imei fs ∧
      ∀ id call, emits limit peer authed imei f = some (id, call) → id = imei ∧
        ∀ x, ¬ call.Announces x := by
  rw [taken, hr, emits]
  rcases hc : classify limit f with e | kind
  · exact .inr ⟨rfl, by simp⟩
  rcases kind with id | ⟨id, mac⟩ | v | p
  · by_cases hid : authed = true ∧ id ≠ imei
    · exact .inr ⟨by simp [hid], by simp [hid]⟩
    · exact .inl ⟨id, rfl, by simp [hid], by simp [hid]⟩
  · exact .inr ⟨rfl, by simp⟩
  · cases v with
    | dict entries =>
      refine .inr ⟨rfl, ?_⟩
      intro id call he
      obtain ⟨rfl, rfl⟩ : imei = id ∧ statCall imei entries = call := by simpa using he
      exact ⟨rfl, fun x hx ↦ by simp [Call.Announces, statCall] at hx⟩
    | _ => simp [raises, hc] at hr
  · refine .inr ⟨rfl, ?_⟩
    intro id call he
    obtain ⟨rfl, rfl⟩ : imei = id ∧ audioCall imei f = call := by simpa using he
    exact ⟨rfl, fun x hx ↦ by simp [Call.Announces, audioCall] at hx⟩

theorem transcript_announces (imei : Str) (frames : List Bytes) (id : Str) :
    (∃ call ∈ transcript limit peer authed imei frames, call.Announces id) ↔
      id ∈ taken limit authed imei frames := by
  induction frames generalizing imei with
  | nil => simp [transcript, taken, disconnect_not_announces]
  | cons f frames ih =>
    cases hr : raises limit f with
    | true => simp [transcript, taken, hr, disconnect_not_announces]
    | false =>
      obtain ⟨x, -, hem, ht⟩ | ⟨ht, hem⟩ := taken_cons limit peer authed imei frames hr
      · simp [transcript, hr, hem, ht, ← ih, connect_announces, eq_comm]
      · rw [transcript, hr, ht, ← ih]
        cases he : emits limit peer authed imei f with
        | none => simp
        | some p =>
          obtain ⟨y, call⟩ := p
          obtain ⟨rfl, hsilent⟩ := hem y call he
          simp [hsilent]

/-- A socket brackets its events if and only if it announces exactly one id. -/
theorem transcript_bracketed_iff (imei : Str) (frames : List Bytes) :
    Bracketed (transcript limit peer authed imei frames) ↔
      ∃ id ∈ taken limit authed imei frames, ∀ x ∈ taken limit authed imei frames, x = id := by
  obtain ⟨calls, he, htalk⟩ := transcript_talk limit peer authed imei frames
  have hmem (id : Str) : id ∈ taken limit authed imei frames ↔
      ∃ call ∈ calls, call.Announces id := by
    rw [← transcript_announces limit peer, he]
    simp [disconnect_not_announces, or_and_right, exists_or]
  have hcalls (call : Call) (hc : call ∈ calls) (id : Str) : ¬ call.Retires id := by
    obtain ⟨x, hs⟩ := htalk.speaks call hc
    exact hs.not_retires
  rw [he, bracketed_concat hcalls rfl]
  simp only [hmem]
  constructor
  · intro ⟨hlast, hopened⟩
    refine ⟨_, hopened, ?_⟩
    intro x ⟨call, hc, ha⟩
    exact hlast call hc x ha
  · intro ⟨id, ⟨call, hc, ha⟩, hall⟩
    have hlast : ∃ call ∈ calls, call.Announces (lastId limit peer authed imei frames) := by
      rcases htalk.kept with hk | ⟨-, hnone⟩
      · exact ⟨_, hk, connect_announces.mpr rfl⟩
      · obtain ⟨x, hs⟩ := htalk.speaks call hc
        exact absurd ((hs.announces ha).2 ▸ hc) (hnone id)
    refine ⟨?_, hlast⟩
    intro c hc' x hx
    rw [hall x ⟨c, hc', hx⟩, hall _ hlast]

end Taken

section Runs

variable {env : Env} {s s' : System}

/-- The event has a connection act on a HELLO for another id than one it has announced. -/
def System.Renames (env : Env) (s : System) (e : Event) : Prop :=
  ∃ c conn chunk registry authed imei buf x y, e = .wake c (.recv chunk registry) ∧
    s.conns c = some conn ∧ conn.phase = .serving authed imei buf ∧ x ≠ y ∧
    x ∈ taken env.limit authed imei (iterFrames (buf ++ chunk)).1 ∧
    (s.Connected c y ∨ y ∈ taken env.limit authed imei (iterFrames (buf ++ chunk)).1)

theorem serve_announces {ing : Ingest} {peer : Peer} {authed : Bool} {imei : Str} {buf : Bytes}
    {new : List Call} (hnew : Produced env ing new (ing.serve env peer authed imei buf).1)
    {id : Str} (ha : ∃ call ∈ new, call.Announces id) :
    id ∈ taken env.limit authed imei (iterFrames buf).1 := by
  obtain ⟨talk, hp, ht, -⟩ := frameLoop_spec env peer authed (iterFrames buf).1 ing imei
  rw [← transcript_announces env.limit peer, ← ht]
  obtain ⟨call, hcall, ha⟩ := ha
  have hin (h : call ∈ talk) : ∃ c ∈ talk.map Call.timeless ++
      [disconnectCall (ing.frameLoop env peer authed imei (iterFrames buf).1).2.1],
      c.Announces id := by
    refine ⟨call.timeless, List.mem_append_left _ (List.mem_map_of_mem h), ?_⟩
    exact (announces_timeless call).mpr ha
  rw [Ingest.serve] at hnew
  rcases hl : ing.frameLoop env peer authed imei (iterFrames buf).1 with ⟨ing₁, last, r⟩
  rw [hl] at hp hnew hin
  cases r with
  | none => exact hin (hnew.unique hp ▸ hcall)
  | some e =>
    obtain ⟨bye, hb, hbye⟩ := cleanup_produced env peer ing₁ last
    obtain rfl := hnew.unique (hp.trans hb)
    rcases List.mem_append.mp hcall with hcall | hcall
    · exact hin hcall
    · obtain rfl := List.mem_singleton.mp hcall
      rw [← announces_timeless, hbye] at ha
      exact absurd ha disconnect_not_announces

theorem resume_announces {ing ing' : Ingest} {conn : Connection} {input : Input} {phase : Phase}
    {new : List Call} {id : Str} (hr : ing.resume env conn input = some (ing', phase))
    (hnew : Produced env ing new ing') (ha : ∃ call ∈ new, call.Announces id) :
    ∃ chunk registry authed imei buf, input = .recv chunk registry ∧
      conn.phase = .serving authed imei buf ∧
      id ∈ taken env.limit authed imei (iterFrames (buf ++ chunk)).1 := by
  have hsilent {bye : Call} {x : Str} (hb : bye.timeless = disconnectCall x) :
      ¬ ∃ call ∈ [bye], call.Announces id := by
    intro ⟨call, hcall, ha⟩
    obtain rfl := List.mem_singleton.mp hcall
    rw [← announces_timeless, hb] at ha
    exact disconnect_not_announces ha
  have hserving {authed : Bool} {imei : Str} {buf : Bytes} (hphase : conn.phase =
    .serving authed imei buf) :
      ∃ chunk registry authed imei buf, input = .recv chunk registry ∧
        conn.phase = .serving authed imei buf ∧
        id ∈ taken env.limit authed imei (iterFrames (buf ++ chunk)).1 := by
    cases input with
    | drained ok => simp [Ingest.resume, hphase] at hr
    | recv chunk registry =>
      refine ⟨chunk, registry, authed, imei, buf, rfl, hphase, ?_⟩
      by_cases hc : chunk = []
      · simp [Ingest.resume, hc] at hr
      · simp only [Ingest.resume, if_neg hc, hphase, Option.some.injEq] at hr
        have hserve := congrArg Prod.fst hr
        dsimp only at hserve
        exact serve_announces (hserve.symm ▸ hnew) ha
    | ended ending =>
      simp only [Ingest.resume, hphase, Option.some.injEq, Prod.mk.injEq] at hr
      obtain ⟨bye, hb, hbye⟩ := cleanup_produced env conn.peer ing imei
      rw [hr.1] at hb
      exact absurd (hnew.unique hb ▸ ha) (hsilent hbye)
  cases resume_turn hr with
  | waits _ hquiet =>
    obtain rfl := hnew.unique hquiet
    simp at ha
  | leaves _ hleave _ hbye => exact absurd (hnew.unique hleave ▸ ha) (hsilent hbye)
  | serves hphase => exact hserving hphase
  | closes hphase => exact hserving hphase

theorem single_step {e : Event} (h : s.Single) (hs : System.step env s e = some s')
    (hrenames : ¬ s.Renames env e) : s'.Single := by
  obtain ⟨c, peer, nonce, ing', phase, rfl, -, rfl, hquiet, -, -⟩ |
    ⟨c, input, conn, ing', phase, rfl, hconn, hr, rfl⟩ := step_cases hs
  · intro c' x y hx hy
    simp only [settle_connected hquiet, List.not_mem_nil, false_and, exists_false, and_false,
      or_false] at hx hy
    exact h c' x y hx hy
  · obtain ⟨new, hnew⟩ := (resume_turn hr).produced
    -- of two ids that a connection has announced, at least one is new with this step
    have hmixed (x y : Str) (hx : ∃ call ∈ new, call.Announces x)
        (hy : s.Connected c y ∨ ∃ call ∈ new, call.Announces y) : x = y := by
      obtain ⟨chunk, registry, authed, imei, buf, hinput, hphase, hxt⟩ :=
        resume_announces hr hnew hx
      by_contra hne
      refine hrenames ⟨c, conn, chunk, registry, authed, imei, buf, x, y,
        by rw [hinput], hconn, hphase,
        hne, hxt, hy.imp id fun hy ↦ ?_⟩
      obtain ⟨chunk', registry', authed', imei', buf', hinput', hphase', hyt⟩ :=
        resume_announces hr hnew hy
      obtain ⟨rfl, rfl⟩ : chunk = chunk' ∧ registry = registry' := by
        simpa using hinput.symm.trans hinput'
      obtain ⟨rfl, rfl, rfl⟩ : authed = authed' ∧ imei = imei' ∧ buf = buf' := by
        simpa using hphase.symm.trans hphase'
      exact hyt
    intro c' x y hx hy
    rw [settle_connected hnew] at hx hy
    rcases hx with hx | ⟨rfl, hx⟩
    · rcases hy with hy | ⟨rfl, hy⟩
      · exact h c' x y hx hy
      · exact (hmixed y x hy (.inl hx)).symm
    · exact hmixed x y hx (hy.imp id And.right)

/-- A run in which no connection changes the id it has announced. -/
theorem run_sound {es : List Event} {maxConcurrent maxPerMinute : ℤ}
    (hrun : run (System.step env) (.init maxConcurrent maxPerMinute) es = some s)
    (hrenames : Throughout (System.step env) (fun s e _ ↦ ¬ s.Renames env e)
      (.init maxConcurrent maxPerMinute) es) : Tables env s ∧ s.Single ∧ s.Sound := by
  refine run_induction (I := fun _ s ↦ Tables env s ∧ s.Single ∧ s.Sound) ?_ ?_ hrenames hrun
  · refine ⟨tables_init maxConcurrent maxPerMinute, ?_, ?_⟩
    · intro c x y hx
      simp [System.init, System.Connected] at hx
    · intro id hp
      simp [System.init, Ingest.init, Present] at hp
  · intro es m e m' _ h hkeeps hs
    have hsingle := single_step h.2.1 hs hkeeps
    exact ⟨tables_step h.1 hs, hsingle, sound_step h.1 h.2.2 hs hsingle⟩

end Runs

section Dropped

variable (env : Env)

/-- No disconnect event is dropped by the producer. -/
def Retiring (n : ℕ) (calls : List Call) : Prop :=
  ∀ i call, calls[i]? = some call → env.broker (n + i) ≠ .enqueued → ∀ id, ¬ call.Retires id

theorem delivered_present (n : ℕ) {calls : List Call} (h : Retiring env n calls) :
    ∃ kept : List Call, kept.Sublist calls ∧ delivered env n calls = kept.map Call.message ∧
      ∀ id, Present kept id → Present calls id := by
  induction calls using List.reverseRecOn with
  | nil => exact ⟨[], .refl _, rfl, fun _ h ↦ h⟩
  | append_singleton calls call ih =>
    have hlast : (calls ++ [call])[calls.length]? = some call := by simp
    obtain ⟨kept, hsub, hkept, hpresent⟩ := ih fun i c hc ↦ by
      obtain ⟨hi, -⟩ := List.getElem?_eq_some_iff.mp hc
      exact h i c (by rw [List.getElem?_append_left hi, hc])
    rw [delivered_append, hkept]
    by_cases htaken : env.broker (n + calls.length) = .enqueued
    · refine ⟨kept ++ [call], hsub.append (.refl _), by simp [delivered, htaken], fun id hp ↦ ?_⟩
      rw [present_concat] at hp ⊢
      exact hp.imp_right (And.imp_left (hpresent id))
    · refine ⟨kept, hsub.trans (List.sublist_append_left _ _), by simp [delivered, htaken],
        fun id hp ↦ ?_⟩
      rw [present_concat]
      exact .inr ⟨hpresent id hp, h calls.length call hlast htaken id⟩

end Dropped

section Handle

variable (env : Env)

theorem handle_emitted (registry : Registry) (link : Link) (ing : Ingest)
    (hallow : (ing.allow env link.peer).2 = true) (hchunks : ∀ c ∈ link.chunks, c ≠ [])
    {ing₁ : Ingest} {sent : Bytes} {accepted : Ingest.Accepted} {chunks : List Bytes}
    (hshake : (ing.allow env link.peer).1.handshake env registry link =
      (ing₁, sent, .ok (accepted, chunks))) :
    emitted ing (ing.handle env registry link).1 = transcript env.limit link.peer accepted.authed
      accepted.imei (feed iterFrames accepted.leftover chunks).1 := by
  have hne : ∀ c ∈ chunks, c ≠ [] := fun c hc ↦
    hchunks c (handshake_unread env registry link _ hshake hc)
  obtain ⟨new, hp, ht, -⟩ := session_spec env link.peer accepted.authed link.ending chunks hne ing₁
    accepted.imei accepted.leftover
  have hquiet := handshake_quiet env registry link (ing.allow env link.peer).1
  rw [hshake] at hquiet
  have hall := ((allow_silent env ing link.peer).1.trans hquiet).trans hp
  rw [handle_accepted env registry link ing (Prod.ext rfl hallow) hshake, hall.emitted]
  simpa using ht

/-- A connection brackets its connect and disconnect events if and only if the HELLO frames it acts
on name exactly one id. Where no connection acts on a HELLO for another id than one it has
announced, nothing is online once all connections are closed, and the API shows nothing online if
the producer has dropped no disconnect event. -/
theorem connects_bracketed_iff :
    (∀ (registry : Registry) (link : Link) (ing ing₁ : Ingest) (sent : Bytes)
        (accepted : Ingest.Accepted) (chunks : List Bytes),
      (ing.allow env link.peer).2 = true → (∀ c ∈ link.chunks, c ≠ []) →
      (ing.allow env link.peer).1.handshake env registry link =
        (ing₁, sent, .ok (accepted, chunks)) →
      (Bracketed (emitted ing (ing.handle env registry link).1) ↔
        ∃ id ∈ taken env.limit accepted.authed accepted.imei
            (feed iterFrames accepted.leftover chunks).1,
          ∀ x ∈ taken env.limit accepted.authed accepted.imei
            (feed iterFrames accepted.leftover chunks).1, x = id)) ∧
    ∀ (maxConcurrent maxPerMinute : ℤ) (es : List Event) (s : System),
      run (System.step env) (.init maxConcurrent maxPerMinute) es = some s →
      Throughout (System.step env) (fun s e _ ↦ ¬ s.Renames env e)
        (.init maxConcurrent maxPerMinute) es →
      (∀ c, ¬ s.Open c) →
      (∀ id, s.ing.online.get id = none) ∧
        ∀ depth limit clock, Retiring env 0 s.ing.calls →
          ∃ state, Api.consumeState depth limit clock .empty s.ing.queue = some state ∧
            ∀ id, ¬ Api.Shows state id := by
  refine ⟨?_, ?_⟩
  · intro registry link ing ing₁ sent accepted chunks hallow hchunks hshake
    rw [handle_emitted env registry link ing hallow hchunks hshake]
    exact transcript_bracketed_iff env.limit link.peer accepted.authed accepted.imei _
  · intro maxConcurrent maxPerMinute es s hrun hrenames hclosed
    obtain ⟨htab, -, hsound⟩ := run_sound hrun hrenames
    have hnone (id : Str) : ¬ Present s.ing.calls id := by
      intro hp
      obtain ⟨c, ho, -⟩ := hsound id hp
      exact hclosed c ho
    refine ⟨?_, ?_⟩
    · intro id
      have hoff : ¬ (s.ing.online.get id).isSome = true :=
        fun h ↦ hnone id ((htab.consistent id).mp h)
      simpa using hoff
    · intro depth limit clock htaken
      obtain ⟨kept, hsub, hkept, hpresent⟩ := delivered_present env 0 htaken
      obtain ⟨state, hstate, hshows⟩ := Api.consumeState_shows depth limit clock
        fun call hcall ↦ htab.wellmade call (hsub.subset hcall)
      have hqueue : s.ing.queue = kept.map Call.message := htab.queue.trans hkept
      exact ⟨state, hqueue ▸ hstate, fun id ↦ (hshows id).not.mpr fun hp ↦
        hnone id (hpresent id hp)⟩

def Link.hellos (ids : List Str) : Link :=
  .lone (ids.map fun id ↦ encodeFrame (helloPrefix ++ id.map UInt8.ofNat))

theorem leaves_offline : ∃ s, run (System.step (Env.calm .disabled)) (.init 64 120)
    (arrives 0 ++ [.wake 0 (.ended .eof)]) = some s ∧ (∀ c, ¬ s.Open c) ∧
    Throughout (System.step (Env.calm .disabled)) (fun s e _ ↦ ¬ s.Renames (Env.calm .disabled) e)
      (.init 64 120) (arrives 0 ++ [.wake 0 (.ended .eof)]) := by
  have hrun : (run (System.step (Env.calm .disabled)) (.init 64 120)
      (arrives 0 ++ [.wake 0 (.ended .eof)])).map (fun s ↦
        (s.conns 0).any fun conn ↦ conn.phase ≠ .closed) = some false := by decide +kernel
  obtain ⟨s, hs, hclosed⟩ := Option.map_eq_some_iff.mp hrun
  refine ⟨s, hs, ?_, ?_⟩
  · intro c hopen
    obtain ⟨conn, hc, hp⟩ := hopen
    by_cases h : c = 0
    · simp [← h, hc, hp] at hclosed
    · obtain rfl := Option.some.inj hs
      simp [System.settle, h, System.init] at hc
  · have hsilent (m : System) (e : Event) (h : ∀ c chunk registry, e ≠
      .wake c (.recv chunk registry)) :
        ¬ m.Renames (Env.calm .disabled) e := by
      intro hrenames
      obtain ⟨c, conn, chunk, registry, authed, imei, buf, x, y, he, -⟩ := hrenames
      exact h c chunk registry he
    apply throughout_cons
    · exact fun m _ ↦ hsilent _ _ (by simp)
    intro m hm
    apply throughout_cons
    · intro m' _ hrenames
      obtain ⟨c, conn, chunk, registry, authed, imei, buf, x, y, he, hconn, hphase, hne, hx, hy⟩ :=
        hrenames
      obtain rfl := Option.some.inj hm
      cases he
      obtain rfl := Option.some.inj hconn
      have hphase' : Phase.serving false (lit "unknown") [] = .serving authed imei buf := hphase
      obtain ⟨rfl, rfl, rfl⟩ : false = authed ∧ lit "unknown" = imei ∧ [] = buf := by
        simpa using hphase'
      have ht : taken (Env.calm .disabled).limit false (lit "unknown")
          (iterFrames ([] ++ encodeFrame (ascii "HELLO:A"))).1 = [lit "A"] := by decide +kernel
      rw [ht] at hx hy
      obtain rfl := List.mem_singleton.mp hx
      rcases hy with hy | hy
      · obtain ⟨call, hlog, -⟩ := hy
        change (0, call) ∈ ([] : List (ℕ × Call)) at hlog
        simp at hlog
      · exact hne (List.mem_singleton.mp hy).symm
    intro m' _
    apply throughout_cons
    · exact fun m _ ↦ hsilent _ _ (by simp)
    · exact fun _ _ ↦ throughout_nil

theorem connects_bracketed_iff_hello :
    Bracketed (emitted (.init 64 120)
      ((Ingest.init 64 120).handle (Env.calm .disabled) Registry.none
        (.hellos [lit "A", lit "A"])).1) ∧
    ∃ s, run (System.step (Env.calm .disabled)) (.init 64 120)
        (arrives 0 ++ [.wake 0 (.ended .eof)]) = some s ∧ (∀ id, s.ing.online.get id = none) ∧
      ∃ state, Api.consumeState 60 1000 (fun _ ↦ 0) .empty s.ing.queue = some state ∧
        ∀ id, ¬ Api.Shows state id := by
  obtain ⟨hbrackets, hruns⟩ := connects_bracketed_iff (Env.calm .disabled)
  refine ⟨?_, ?_⟩
  · refine (hbrackets Registry.none (.hellos [lit "A", lit "A"]) (.init 64 120) _ [] ⟨none,
      false, []⟩
      (Link.hellos [lit "A", lit "A"]).chunks (by decide +kernel) (by decide) rfl).mpr ⟨lit "A", ?_⟩
    decide +kernel
  · obtain ⟨s, hs, hclosed, hkeeps⟩ := leaves_offline
    obtain ⟨honline, hshows⟩ := hruns 64 120 _ s hs hkeeps hclosed
    exact ⟨s, hs, honline, hshows 60 1000 (fun _ ↦ 0) fun _ _ _ hdropped ↦ absurd rfl hdropped⟩

/-- A socket that says HELLO under two ids takes only the second one offline. -/
theorem rehello_lingers :
    ((Ingest.init 64 120).allow (Env.calm .disabled) (Link.lone []).peer).2 = true ∧
    ¬ Bracketed (emitted (.init 64 120)
      ((Ingest.init 64 120).handle (Env.calm .disabled) Registry.none
        (.hellos [lit "A", lit "B"])).1) ∧
    (((Ingest.init 64 120).handle (Env.calm .disabled) Registry.none
      (.hellos [lit "A", lit "B"])).1.online.get (lit "A")).isSome = true ∧
    (Api.consumeState 60 1000 (fun _ ↦ 0) .empty ((Ingest.init 64 120).handle (Env.calm .disabled)
      Registry.none (.hellos [lit "A", lit "B"])).1.queue).any
        (fun state ↦ (state.get (lit "A")).any Api.Device.online) = true := by
  have hshake : ((Ingest.init 64 120).allow (Env.calm .disabled) (Link.lone []).peer).1.handshake
      (Env.calm .disabled) Registry.none (.hellos [lit "A", lit "B"]) = (_, [],
        .ok (⟨none, false, []⟩, (Link.hellos [lit "A", lit "B"]).chunks)) := rfl
  refine ⟨by decide +kernel, ?_, by decide +kernel, by decide +kernel⟩
  rw [handle_emitted (Env.calm .disabled) Registry.none (.hellos [lit "A", lit "B"]) (.init 64 120)
    (by decide +kernel) (by decide) hshake, transcript_bracketed_iff]
  decide +kernel

end Handle

end OpusFleet.Server
