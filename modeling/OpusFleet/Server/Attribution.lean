import OpusFleet.Server.Connections

namespace OpusFleet.Server

open Python Library Protocol Auth Library.Runs

def received (c : ℕ) (es : List Event) : Bytes :=
  es.flatMap fun
    | .wake c' (.recv chunk _) => if c' = c then chunk else []
    | _ => []

/-- The first frame of connection `c` was an AUTH frame for `id` with the MAC of the nonce it
was sent, under the key that the registry returned when the frame came in. -/
def Authenticated (env : Env) (es : List Event) (c : ℕ) (id : Str) (nonce : Nonce) (mac : Str)
    (key : Bytes) : Prop :=
  ∃ before chunk registry after peer payload,
    es = before ++ .wake c (.recv chunk registry) :: after ∧
    Event.accept c peer nonce ∈ before ∧
    (iterFrames (received c before)).1 = [] ∧
    (iterFrames (received c before ++ chunk)).1.head? = some payload ∧
    startsWith payload authPrefix = true ∧ parseAuth payload = .ok (id, mac) ∧
    registry id = .ok (some key) ∧ key ≠ [] ∧ lower mac = sign env.hmac key nonce

variable {env : Env} {es : List Event} {c : ℕ} {id mac : Str} {nonce : Nonce} {key : Bytes}

theorem Authenticated.later (h : Authenticated env es c id nonce mac key) (e : Event) :
    Authenticated env (es ++ [e]) c id nonce mac key := by
  obtain ⟨before, chunk, registry, after, peer, payload, he, h⟩ := h
  refine ⟨before, chunk, registry, after ++ [e], peer, payload, ?_, h⟩
  rw [he, List.append_assoc, List.cons_append]

theorem Authenticated.nonce_eq
    (hinj : ∀ key, Function.Injective fun n : Nonce ↦ env.hmac.digest key n)
    (h : Authenticated env es c id nonce mac key) {nonce' : Nonce}
    (hmac : lower mac = sign env.hmac key nonce') : nonce' = nonce := by
  obtain ⟨_, _, _, _, _, _, -, -, -, -, -, -, -, -, hsign⟩ := h
  exact hinj key (hex_inj (hmac.symm.trans hsign))

section Check

theorem parseAuth_ok {payload : Bytes} (h : parseAuth payload = .ok (id, mac)) :
    id ≠ [] ∧ strip mac = mac := by
  unfold parseAuth at h
  dsimp only at h
  split at h
  · simp at h
  split at h
  · simp at h
  · next hne =>
    simp only [Except.ok.injEq, Prod.mk.injEq] at h
    obtain ⟨rfl, rfl⟩ := h
    exact ⟨fun he ↦ hne (.inl he), strip_idem _⟩

theorem classify_auth {limit : ℕ} {payload : Bytes}
    (h : classify limit payload = .ok (.auth id mac)) :
    startsWith payload authPrefix = true ∧ parseAuth payload = .ok (id, mac) := by
  unfold classify at h
  split at h
  · simp at h
  split at h
  · next ha =>
    rcases hp : parseAuth payload with e | p
    · simp [hp, Except.map] at h
    · simp only [hp, Except.map, Except.ok.injEq, Kind.auth.injEq] at h
      exact ⟨ha, by rw [← h.1, ← h.2]⟩
  split at h
  · rcases hp : parseStat limit (payload.drop statPrefix.length) with e | v <;>
      simp [hp, Except.map] at h
  · simp at h

/-- In required mode the handshake lets in only a first frame that proves its id. -/
theorem checkFrame_required (hmode : env.mode = .required) {registry : Registry} {peer : Peer}
    {payload leftover : Bytes} {accepted : Ingest.Accepted}
    (h : Ingest.checkFrame env registry nonce peer payload leftover = .ok accepted) :
    accepted.authed = true ∧ ∃ mac key, startsWith payload authPrefix = true ∧
      parseAuth payload = .ok (accepted.imei, mac) ∧ registry accepted.imei = .ok (some key) ∧
      key ≠ [] ∧ lower mac = sign env.hmac key nonce := by
  unfold Ingest.checkFrame at h
  rcases hc : classify env.limit payload with e | kind
  · simp [hc] at h
  cases kind with
  | auth id mac =>
    obtain ⟨ha, hp⟩ := classify_auth hc
    obtain ⟨hid, hstrip⟩ := parseAuth_ok hp
    rcases hr : registry id with e | key
    · simp [hc, hr] at h
    by_cases hv : verify env.hmac (key.getD []) nonce mac = true
    · simp only [hc, hr, if_pos hv, Except.ok.injEq] at h
      obtain ⟨hkey, -, -, hsign⟩ := (verify_iff _ _ _ _).mp hv
      rw [hstrip] at hsign
      cases key with
      | none => exact absurd rfl hkey
      | some key =>
        subst h
        have himei : (⟨some id, true, leftover⟩ : Ingest.Accepted).imei = id := by
          cases id with
          | nil => exact absurd rfl hid
          | cons x xs => rfl
        rw [himei]
        exact ⟨rfl, mac, key, ha, hp, hr, hkey, hsign.symm⟩
    · simp [hc, hr, hv] at h
  | hello value => simp [hc, hmode] at h
  | stat value => simp [hc, hmode] at h
  | audio p => simp [hc, hmode] at h

end Check

section Invariant

/-- What the events so far say about a connection in each phase. -/
def Standing (env : Env) (es : List Event) (c : ℕ) (nonce : Nonce) : Phase → Prop
  | .challenging => received c es = []
  | .reading buf => received c es = buf ∧ (iterFrames buf).1 = []
  | .greeting accepted =>
    accepted.authed = true ∧ ∃ mac key, Authenticated env es c accepted.imei nonce mac key
  | .serving authed imei _ => authed = true ∧ ∃ mac key, Authenticated env es c imei nonce mac key
  | .denying | .closed => True

structure Attributed (env : Env) (es : List Event) (s : System) : Prop where
  calls : s.ing.calls = s.log.map Prod.snd
  unborn : ∀ c, s.conns c = none → received c es = []
  born : ∀ c conn, s.conns c = some conn →
    Event.accept c conn.peer conn.nonce ∈ es ∧ Standing env es c conn.nonce conn.phase
  log : ∀ c call id, (c, call) ∈ s.log → call.Attributes id →
    ∃ nonce mac key, Authenticated env es c id nonce mac key

theorem received_other {e : Event} (h : ∀ chunk registry, e ≠ .wake c (.recv chunk registry)) :
    received c (es ++ [e]) = received c es := by
  cases e with
  | accept c' peer nonce => simp [received]
  | wake c' input =>
    cases input with
    | drained ok => simp [received]
    | recv chunk registry =>
      have hne : c' ≠ c := fun hc ↦ h chunk registry (hc ▸ rfl)
      simp [received, hne]
    | ended ending => simp [received]

theorem received_recv (chunk : Bytes) (registry : Registry) :
    received c (es ++ [.wake c (.recv chunk registry)]) = received c es ++ chunk := by
  simp [received]

theorem Standing.later {phase : Phase} {e : Event} (h : Standing env es c nonce phase)
    (he : ∀ chunk registry, e ≠ .wake c (.recv chunk registry)) :
    Standing env (es ++ [e]) c nonce phase := by
  cases phase with
  | challenging => exact (received_other he).trans h
  | reading buf => exact ⟨(received_other he).trans h.1, h.2⟩
  | greeting accepted =>
    obtain ⟨ha, mac, key, hauth⟩ := h
    exact ⟨ha, mac, key, hauth.later e⟩
  | serving authed imei buf =>
    obtain ⟨ha, mac, key, hauth⟩ := h
    exact ⟨ha, mac, key, hauth.later e⟩
  | denying => trivial
  | closed => trivial

theorem standing_refuse (ing : Ingest) (peer : Peer) (e : Exc) :
    Standing env es c nonce (ing.refuse env peer e).2 := by
  rw [Ingest.refuse]
  split <;> trivial

theorem standing_congr {p : Ingest × Phase} {ing' : Ingest} {phase : Phase}
    (h : Standing env es c nonce p.2) (hp : some p = some (ing', phase)) :
    Standing env es c nonce phase := by
  obtain rfl := Option.some.inj hp
  exact h

theorem standing_answer (hmode : env.mode = .required) {registry : Registry} {conn : Connection}
    {ing : Ingest} {payload leftover : Bytes}
    (hauth : ∀ mac key id, startsWith payload authPrefix = true ∧
      parseAuth payload = .ok (id, mac) ∧
      registry id = .ok (some key) ∧ key ≠ [] ∧ lower mac = sign env.hmac key conn.nonce →
      Authenticated env es c id conn.nonce mac key) :
    Standing env es c conn.nonce (ing.answer env registry conn payload leftover).2 := by
  rw [Ingest.answer]
  rcases hcheck : Ingest.checkFrame env registry conn.nonce conn.peer payload leftover with
    e | accepted
  · exact standing_refuse ing conn.peer e
  · obtain ⟨ha, mac, key, h⟩ := checkFrame_required hmode hcheck
    simp only [if_pos ha]
    split
    · exact standing_refuse ing conn.peer _
    · exact ⟨ha, mac, key, hauth mac key _ h⟩

theorem firstFrame_silent {buf : Bytes} (h : Ingest.firstFrame buf = none) :
    (iterFrames buf).1 = [] := by
  rcases hi : iterFrames buf with ⟨_ | ⟨f, frames⟩, rest⟩
  · rfl
  · simp [Ingest.firstFrame, hi] at h

theorem firstFrame_head {buf payload : Bytes} {r : Except Exc Bytes}
    (h : Ingest.firstFrame buf = some (payload, r)) : (iterFrames buf).1.head? = some payload := by
  rcases hi : iterFrames buf with ⟨_ | ⟨f, frames⟩, rest⟩
  · simp [Ingest.firstFrame, hi] at h
  · simp only [Ingest.firstFrame, hi, Option.some.injEq, Prod.mk.injEq] at h
    rw [← h.1]
    rfl

variable {conn : Connection} {ing ing' : Ingest} {input : Input} {phase : Phase}

theorem reading_standing (hmode : env.mode = .required)
    (haccept : Event.accept c conn.peer conn.nonce ∈ es)
    {buf chunk : Bytes} {registry : Registry} (hphase : conn.phase = .reading buf)
    (hbuf : received c es = buf) (hsilent : (iterFrames buf).1 = [])
    (hr : ing.resume env conn (.recv chunk registry) = some (ing', phase)) :
    Standing env (es ++ [.wake c (.recv chunk registry)]) c conn.nonce phase := by
  simp only [Ingest.resume, hphase] at hr
  split at hr
  · simp at hr
  split at hr
  · next hfirst =>
    obtain ⟨-, rfl⟩ : _ ∧ Phase.reading (buf ++ chunk) = phase := by simpa using hr
    refine ⟨?_, firstFrame_silent hfirst⟩
    rw [received_recv, hbuf]
  · exact standing_congr (standing_refuse ing conn.peer _) hr
  · next payload leftover hfirst =>
    refine standing_congr (standing_answer hmode ?_) hr
    intro mac key id h
    exact ⟨es, chunk, registry, [], conn.peer, payload, rfl, haccept, hbuf ▸ hsilent,
      hbuf ▸ firstFrame_head hfirst, h⟩

theorem resume_standing (hmode : env.mode = .required)
    (haccept : Event.accept c conn.peer conn.nonce ∈ es)
    (hst : Standing env es c conn.nonce conn.phase)
    (hr : ing.resume env conn input = some (ing', phase)) :
    Standing env (es ++ [.wake c input]) c conn.nonce phase := by
  cases hphase : conn.phase with
  | challenging =>
    rw [hphase] at hst
    cases input with
    | drained ok =>
      simp only [Ingest.resume, hphase] at hr
      split at hr
      · obtain ⟨-, rfl⟩ : _ ∧ Phase.reading [] = phase := by simpa using hr
        exact ⟨(received_other (by simp)).trans hst, rfl⟩
      · obtain ⟨-, rfl⟩ : _ ∧ Phase.closed = phase := by simpa using hr
        trivial
    | recv chunk registry => simp [Ingest.resume, hphase] at hr
    | ended ending => simp [Ingest.resume, hphase] at hr
  | reading buf =>
    rw [hphase] at hst
    obtain ⟨hbuf, hsilent⟩ := hst
    cases input with
    | drained ok => simp [Ingest.resume, hphase] at hr
    | recv chunk registry => exact reading_standing hmode haccept hphase hbuf hsilent hr
    | ended ending =>
      simp only [Ingest.resume, hphase] at hr
      exact standing_congr (standing_refuse ing conn.peer _) hr
  | greeting accepted =>
    rw [hphase] at hst
    obtain ⟨ha, mac, key, hauth⟩ := hst
    cases input with
    | drained ok =>
      simp only [Ingest.resume, hphase] at hr
      split at hr
      · obtain ⟨-, rfl⟩ : _ ∧ Phase.serving _ _ _ = phase := by simpa using hr
        exact ⟨ha, mac, key, hauth.later _⟩
      · obtain ⟨-, rfl⟩ : _ ∧ Phase.closed = phase := by simpa using hr
        trivial
    | recv chunk registry => simp [Ingest.resume, hphase] at hr
    | ended ending => simp [Ingest.resume, hphase] at hr
  | denying =>
    cases input with
    | drained ok =>
      obtain ⟨-, rfl⟩ : _ ∧ Phase.closed = phase := by simpa [Ingest.resume, hphase] using hr
      trivial
    | recv chunk registry => simp [Ingest.resume, hphase] at hr
    | ended ending => simp [Ingest.resume, hphase] at hr
  | serving authed imei buf =>
    rw [hphase] at hst
    obtain ⟨ha, mac, key, hauth⟩ := hst
    cases resume_turn hr with
    | waits houtside => exact absurd hphase (houtside _ _ _)
    | leaves => trivial
    | serves hserving hnew _ htalk =>
      obtain ⟨rfl, rfl, -⟩ : authed = _ ∧ imei = _ ∧ _ := by
        simpa using hphase.symm.trans hserving
      rw [(htalk.loyal ha).2]
      exact ⟨ha, mac, key, hauth.later _⟩
    | closes => trivial
  | closed => exact absurd hphase (resume_unclosed hr)

theorem attributed_init (maxConcurrent maxPerMinute : ℤ) :
    Attributed env [] (.init maxConcurrent maxPerMinute) where
  calls := rfl
  unborn _ _ := rfl
  born c conn h := by simp [System.init] at h
  log c call id h := by simp [System.init] at h

theorem log_calls {s : System} {conn : Connection} {new : List Call}
    (hcalls : s.ing.calls = s.log.map Prod.snd) (hnew : Produced env s.ing new ing') :
    (s.settle c conn ing').ing.calls = (s.settle c conn ing').log.map Prod.snd := by
  rw [settle_log hnew]
  simp only [System.settle, hnew.calls, hcalls, List.map_append, List.map_map]
  congr 1
  exact (List.map_id new).symm

theorem turn_attributes (hst : Standing env es c conn.nonce conn.phase) {new : List Call}
    (hturn : Turn env ing conn input ing' phase) (hnew : Produced env ing new ing') :
    ∀ call ∈ new, call.Attributes id → ∃ mac key, Authenticated env es c id conn.nonce mac key := by
  have hbye {call : Call} {x : Str} (h : call.timeless = disconnectCall x) :
      ¬ call.Attributes id := by
    rw [← attributes_timeless, h]
    exact disconnect_not_attributes
  have htalks {authed : Bool} {imei last : Str} {buf : Bytes} {talk : List Call}
      (hserving : conn.phase = .serving authed imei buf)
      (htalk : Talk conn.peer authed imei (talk.map Call.timeless) last) :
      ∀ call ∈ talk, call.Attributes id →
        ∃ mac key, Authenticated env es c id conn.nonce mac key := by
    intro call hcall hattr
    rw [hserving] at hst
    obtain ⟨ha, mac, key, hauth⟩ := hst
    have hspeaks := (htalk.loyal ha).1 _ (List.mem_map_of_mem hcall)
    rw [hspeaks.attributes ((attributes_timeless call).mpr hattr)]
    exact ⟨mac, key, hauth⟩
  have hunique {new' : List Call} (h : Produced env ing new' ing') : new = new' :=
    List.append_cancel_left (hnew.calls.symm.trans h.calls)
  cases hturn with
  | waits houtside hquiet =>
    rw [hunique hquiet]
    simp
  | leaves houtside hleave _ htimeless =>
    rw [hunique hleave]
    intro call hcall hattr
    rw [List.mem_singleton.mp hcall] at hattr
    exact absurd hattr (hbye htimeless)
  | serves hserving hserve _ htalk =>
    rw [hunique hserve]
    exact htalks hserving htalk
  | closes hserving hclose _ htalk htimeless =>
    rw [hunique hclose]
    intro call hcall hattr
    rcases List.mem_append.mp hcall with hcall | hcall
    · exact htalks hserving htalk call hcall hattr
    · rw [List.mem_singleton.mp hcall] at hattr
      exact absurd hattr (hbye htimeless)

theorem Attributed.later {s : System} (h : Attributed env es s) {c' : ℕ} {call : Call} {x : Str}
    (hlog : (c', call) ∈ s.log) (hattr : call.Attributes x) (e : Event) :
    ∃ nonce mac key, Authenticated env (es ++ [e]) c' x nonce mac key := by
  obtain ⟨nonce, mac, key, hauth⟩ := h.log c' call x hlog hattr
  exact ⟨nonce, mac, key, hauth.later e⟩

theorem attributed_accept (hmode : env.mode = .required) {s : System} {peer : Peer}
    (h : Attributed env es s) (hfresh : s.conns c = none) (hquiet : Produced env s.ing [] ing')
    (hphase : phase = env.mode.opening ∨ phase = .closed) :
    Attributed env (es ++ [.accept c peer nonce]) (s.settle c ⟨peer, nonce, phase⟩ ing') := by
  refine ⟨log_calls h.calls hquiet, ?_, ?_, ?_⟩
  · intro c' hc'
    exact (received_other (by simp)).trans (h.unborn c' (settle_none hc').2)
  · intro c' conn hc'
    rcases settle_some hc' with ⟨rfl, rfl⟩ | ⟨-, hc'⟩
    · refine ⟨by simp, ?_⟩
      rcases hphase with rfl | rfl
      · rw [hmode]
        exact (received_other (by simp)).trans (h.unborn c' hfresh)
      · trivial
    · obtain ⟨ha, hst⟩ := h.born c' conn hc'
      exact ⟨List.mem_append_left _ ha, hst.later (by simp)⟩
  · intro c' call x hlog hattr
    rw [settle_log hquiet] at hlog
    exact h.later (by simpa using hlog) hattr _

theorem attributed_wake (hmode : env.mode = .required) {s : System} (h : Attributed env es s)
    (hconn : s.conns c = some conn) (hr : s.ing.resume env conn input = some (ing', phase)) :
    Attributed env (es ++ [.wake c input]) (s.settle c { conn with phase := phase } ing') := by
  obtain ⟨haccept, hst⟩ := h.born c conn hconn
  have hst' := resume_standing hmode haccept hst hr
  have hturn := resume_turn hr
  obtain ⟨new, hnew⟩ := hturn.produced
  refine ⟨log_calls h.calls hnew, ?_, ?_, ?_⟩
  · intro c' hc'
    obtain ⟨hne, hc'⟩ := settle_none hc'
    exact (received_other (by simp [Ne.symm hne])).trans (h.unborn c' hc')
  · intro c' conn' hc'
    rcases settle_some hc' with ⟨rfl, rfl⟩ | ⟨hne, hc'⟩
    · exact ⟨List.mem_append_left _ haccept, hst'⟩
    · obtain ⟨ha, hst''⟩ := h.born c' conn' hc'
      exact ⟨List.mem_append_left _ ha, hst''.later (by simp [Ne.symm hne])⟩
  · intro c' call x hlog hattr
    rw [settle_log hnew, List.mem_append, List.mem_map] at hlog
    rcases hlog with hlog | ⟨call', hcall', he⟩
    · exact h.later hlog hattr _
    · obtain ⟨rfl, rfl⟩ : c = c' ∧ call' = call := by simpa using he
      obtain ⟨mac, key, hauth⟩ := turn_attributes hst hturn hnew call' hcall' hattr
      exact ⟨conn.nonce, mac, key, hauth.later _⟩

theorem attributed_step (hmode : env.mode = .required) {s s' : System} {e : Event}
    (h : Attributed env es s) (hs : System.step env s e = some s') :
    Attributed env (es ++ [e]) s' := by
  obtain ⟨c, peer, nonce, ing', phase, rfl, hfresh, rfl, hquiet, -, hphase⟩ |
    ⟨c, input, conn, ing', phase, rfl, hconn, hr, rfl⟩ := step_cases hs
  · exact attributed_accept hmode h hfresh hquiet hphase
  · exact attributed_wake hmode h hconn hr

end Invariant

section Main

def Phase.LetIn : Phase → Str → Prop
  | .greeting accepted, id => accepted.imei = id
  | .serving _ imei _, id => imei = id
  | _, _ => False

/-- In required mode, whatever the interleaving, audio, reports and connect events carry the
id that their own connection proved with its first frame; and where HMAC is injective in the
nonce, no connection gets in with the MAC of another nonce. -/
theorem required_attributes (hmode : env.mode = .required) (maxConcurrent maxPerMinute : ℤ)
    {s : System} (hrun : run (System.step env) (.init maxConcurrent maxPerMinute) es = some s) :
    s.ing.calls = s.log.map Prod.snd ∧
    (∀ c call id, (c, call) ∈ s.log → call.Attributes id →
      ∃ nonce mac key, Authenticated env es c id nonce mac key) ∧
    (∀ c conn id, s.conns c = some conn → conn.phase.LetIn id →
      ∃ mac key, Authenticated env es c id conn.nonce mac key ∧
        ((∀ key, Function.Injective fun n : Nonce ↦ env.hmac.digest key n) →
          ∀ nonce' : Nonce, nonce' ≠ conn.nonce → lower mac ≠ sign env.hmac key nonce')) := by
  have h : Attributed env es s := by
    refine run_induction (attributed_init maxConcurrent maxPerMinute) ?_ (throughout_true es) hrun
    intro es m e m' _ h _ hs
    exact attributed_step hmode h hs
  refine ⟨h.calls, h.log, ?_⟩
  intro c conn id hconn hid
  obtain ⟨mac, key, hauth⟩ : ∃ mac key, Authenticated env es c id conn.nonce mac key := by
    have hst := (h.born c conn hconn).2
    cases hphase : conn.phase with
    | greeting accepted =>
      rw [hphase] at hst hid
      exact hid ▸ hst.2
    | serving authed imei buf =>
      rw [hphase] at hst hid
      exact hid ▸ hst.2
    | challenging | reading buf | denying | closed =>
      rw [hphase] at hid
      exact hid.elim
  refine ⟨mac, key, hauth, ?_⟩
  intro hinj nonce' hne hmac
  exact hne (hauth.nonce_eq hinj hmac)

theorem echo_injective (key : Bytes) :
    Function.Injective fun n : Nonce ↦ Hmac.echo.digest key n := by
  intro m n h
  have hcut (n : Nonce) : (Hmac.echo.digest key n).take 16 = n.1 := by
    rw [Hmac.echo, List.take_take]
    exact List.take_left' n.2
  apply Subtype.ext
  rw [← hcut m, ← hcut n]
  exact congrArg (List.take 16) h

/-- A device that answers the challenge of an all-zero nonce and then sends audio. -/
def proven : List Event :=
  let registry : Registry := fun _ ↦ .ok (some [1])
  [.accept 0 (Link.lone []).peer (Link.lone []).nonce, .wake 0 (.drained true),
    .wake 0 (.recv (encodeFrame (ascii "AUTH:A:" ++ List.replicate 64 48)) registry),
    .wake 0 (.drained true), .wake 0 (.recv (encodeFrame (List.replicate 20 0)) registry)]

theorem required_attributes_proven :
    ∃ s, run (System.step (Env.calm .required)) (.init 64 120) proven = some s ∧ s.log.length = 1 ∧
      s.ing.calls = s.log.map Prod.snd ∧
      (∀ c call id, (c, call) ∈ s.log → call.Attributes id →
        ∃ nonce mac key, Authenticated (Env.calm .required) proven c id nonce mac key) ∧
      ∀ c conn id, s.conns c = some conn → conn.phase.LetIn id →
        ∃ mac key, Authenticated (Env.calm .required) proven c id conn.nonce mac key ∧
          ∀ nonce' : Nonce, nonce' ≠ conn.nonce → lower mac ≠ sign Hmac.echo key nonce' := by
  have hlog : (run (System.step (Env.calm .required)) (.init 64 120) proven).map (·.log.length) =
      some 1 := by decide +kernel
  obtain ⟨s, hs, hl⟩ := Option.map_eq_some_iff.mp hlog
  obtain ⟨hcalls, hattr, hin⟩ := required_attributes rfl 64 120 hs
  refine ⟨s, hs, hl, hcalls, hattr, ?_⟩
  intro c conn id hc hid
  obtain ⟨mac, key, hauth, hother⟩ := hin c conn id hc hid
  exact ⟨mac, key, hauth, hother echo_injective⟩

end Main

end OpusFleet.Server
