import OpusFleet.Server.Attribution
import OpusFleet.Server.Presence

namespace OpusFleet.Server

open Python Library Library.Runs Protocol Auth

section Ids

variable {limit : ℕ} {payload : Bytes} {id mac : Str}

theorem decodeAsciiIgnore_sound (bs : Bytes) : Ascii (decodeAsciiIgnore bs) := by
  intro c hc
  simpa using (List.mem_filter.mp hc).2

theorem ascii_strip {s : Str} (h : Ascii s) : Ascii (strip s) := fun c hc ↦ h c (mem_strip hc)

theorem classify_hello_ascii (h : classify limit payload = .ok (.hello id)) : Ascii id := by
  unfold classify at h
  split at h
  · obtain rfl := Kind.hello.inj (Except.ok.inj h)
    split
    · decide
    · exact ascii_strip (decodeAsciiIgnore_sound _)
  split at h
  · cases hp : parseAuth payload <;> simp [hp, Except.map] at h
  split at h
  · cases hp : parseStat limit (payload.drop statPrefix.length) <;> simp [hp, Except.map] at h
  · cases h

theorem parseAuth_ascii (h : parseAuth payload = .ok (id, mac)) : Ascii id := by
  unfold parseAuth at h
  dsimp only at h
  split at h
  · cases h
  split at h
  · cases h
  · obtain ⟨rfl, -⟩ := Prod.mk.inj (Except.ok.inj h)
    exact ascii_strip fun c hc ↦ decodeAsciiIgnore_sound _ c ((List.takeWhile_prefix _).subset hc)

theorem accepted_ascii {accepted : Ingest.Accepted}
    (h : ∀ id, accepted.claimed = some id → Ascii id) :
    Ascii accepted.imei := by
  rcases accepted with ⟨_ | _ | ⟨c, cs⟩, authed, leftover⟩
  · exact (by decide : Ascii (lit "unknown"))
  · exact (by decide : Ascii (lit "unknown"))
  · exact h (c :: cs) rfl

theorem checkFrame_ascii {env : Env} {registry : Registry} {nonce : Nonce} {peer : Peer}
    {leftover : Bytes} {accepted : Ingest.Accepted}
    (h : Ingest.checkFrame env registry nonce peer payload leftover = .ok accepted) :
    Ascii accepted.imei := by
  refine accepted_ascii ?_
  unfold Ingest.checkFrame at h
  rcases hc : classify env.limit payload with e | kind
  · simp [hc] at h
  rcases kind with value | ⟨deviceId, mac⟩ | value | p
  · simp only [hc] at h
    split at h
    · cases h
    · cases hframe : frame payload with
      | error e => simp [hframe, Except.map] at h
      | ok first =>
        simp only [hframe, Except.map, Except.ok.injEq] at h
        subst h
        rintro id ⟨⟩
        exact classify_hello_ascii hc
  · rcases hr : registry deviceId with e | key
    · simp [hc, hr] at h
    simp only [hc, hr] at h
    split at h
    · obtain rfl := Except.ok.inj h
      rintro id ⟨⟩
      exact parseAuth_ascii (classify_auth hc).2
    · cases h
  · simp only [hc] at h
    split at h
    · cases h
    · cases hframe : frame payload with
      | error e => simp [hframe, Except.map] at h
      | ok first =>
        simp only [hframe, Except.map, Except.ok.injEq] at h
        subst h
        simp
  · simp only [hc] at h
    split at h
    · cases h
    · cases hframe : frame payload with
      | error e => simp [hframe, Except.map] at h
      | ok first =>
        simp only [hframe, Except.map, Except.ok.injEq] at h
        subst h
        simp

end Ids

section Calls

variable {env : Env} {peer : Peer} {Q : Call → Prop} {ing : Ingest} {imei : Str}

/-- Each of the four calls that a connection of `peer` makes under an
ASCII id has the property `Q`. -/
structure Utters (env : Env) (peer : Peer) (Q : Call → Prop) : Prop where
  connect : ∀ (ing : Ingest) (imei : Str), Ascii imei →
    Q ⟨.events, imei, Ingest.connectEvent imei peer (ing.stamp env)⟩
  disconnect : ∀ (ing : Ingest) (imei : Str), Ascii imei →
    Q ⟨.events, imei, Ingest.disconnectEvent imei (ing.stamp env)⟩
  stat : ∀ (ing : Ingest) (imei : Str) (payload : Bytes) (entries : List (Str × Value)),
    Ascii imei →
    classify env.limit payload = .ok (.stat (.dict entries)) →
    Q ⟨.stat, imei, Ingest.statReport imei entries (ing.stamp env)⟩
  audio : ∀ (imei : Str) (payload : Bytes), Ascii imei → Q ⟨.audio, imei, .raw payload⟩

def Ingest.Carries (Q : Call → Prop) (ing : Ingest) : Prop := ∀ call ∈ ing.calls, Q call

theorem produce_carries {ing' : Ingest} (h : ing.Carries Q) (hcalls : ing'.calls = ing.calls)
    {topic : Topic} {key : Str} {value : Payload} (hcall : Q ⟨topic, key, value⟩) :
    (ing'.produce env topic key value).Carries Q := by
  intro call hmem
  rw [produce_calls, hcalls] at hmem
  rcases List.mem_append.mp hmem with hmem | hmem
  · exact h call hmem
  · obtain rfl := List.mem_singleton.mp hmem
    exact hcall

section Loop

variable (hutters : Utters env peer Q)

include hutters

theorem hello_carries (himei : Ascii imei) (h : ing.Carries Q) :
    (ing.hello env peer imei).Carries Q := by
  rw [Ingest.hello]
  refine produce_carries h ?_ (hutters.connect _ imei himei)
  rfl

theorem cleanup_carries (himei : Ascii imei) (h : ing.Carries Q) :
    (ing.cleanup env peer imei).Carries Q := by
  rw [Ingest.cleanup]
  refine produce_carries h ?_ (hutters.disconnect _ imei himei)
  rfl

theorem dispatch_carries (himei : Ascii imei) (authed : Bool) (payload : Bytes)
    (h : ing.Carries Q) :
    (ing.dispatch env peer authed imei payload).1.Carries Q ∧
      ∀ id, (ing.dispatch env peer authed imei payload).2 = .ok id → Ascii id := by
  have hkept {α : Type} {P : Prop} (hP : P) : P ∧
      ∀ id, (Except.ok imei : Except α Str) = .ok id → Ascii id :=
    ⟨hP, fun id hid ↦ Except.ok.inj hid ▸ himei⟩
  rw [Ingest.dispatch]
  split
  · exact hkept h
  · exact ⟨h, fun id hid ↦ by cases hid⟩
  · exact hkept h
  · next value hc =>
    split
    · exact hkept h
    · exact ⟨hello_carries hutters (classify_hello_ascii hc) h,
        fun id hid ↦ Except.ok.inj hid ▸ classify_hello_ascii hc⟩
  · next entries hc =>
    have htick : ing.tick.Carries Q := h
    exact hkept (produce_carries htick rfl (hutters.stat ing imei payload entries himei hc))
  · exact ⟨h, fun id hid ↦ by cases hid⟩
  · have haudio : (ing.audio env imei payload).Carries Q := by
      refine produce_carries h ?_ (hutters.audio imei payload himei)
      rfl
    exact hkept haudio

theorem frameLoop_carries (authed : Bool) (frames : List Bytes) (himei : Ascii imei)
    (h : ing.Carries Q) :
    (ing.frameLoop env peer authed imei frames).1.Carries Q ∧
      Ascii (ing.frameLoop env peer authed imei frames).2.1 := by
  induction frames generalizing ing imei with
  | nil => exact ⟨h, himei⟩
  | cons f frames ih =>
    have hstart : ({ ing with dispatched := ing.dispatched ++ [f] } : Ingest).Carries Q := h
    obtain ⟨hnext, hid⟩ := dispatch_carries hutters himei authed f hstart
    rw [Ingest.frameLoop]
    split
    · next he =>
      rw [he] at hnext hid
      exact ih (hid _ rfl) hnext
    · next he =>
      rw [he] at hnext
      exact ⟨hnext, himei⟩

end Loop

end Calls

section Steps

variable {env : Env} {Q : Call → Prop} {ing : Ingest} {conn : Connection}

def Phase.Spelled : Phase → Prop
  | .greeting accepted => Ascii accepted.imei
  | .serving _ imei _ => Ascii imei
  | _ => True

def Fit (Q : Call → Prop) (p : Ingest × Phase) : Prop := p.1.Carries Q ∧ p.2.Spelled

section Resume

variable (hutters : Utters env conn.peer Q) (h : ing.Carries Q)

include hutters h

theorem gone_fit : Fit Q (ing.cleanup env conn.peer (lit "unknown"), .closed) :=
  ⟨cleanup_carries hutters (by decide) h, trivial⟩

theorem refuse_fit (e : Exc) : Fit Q (ing.refuse env conn.peer e) := by
  rw [Ingest.refuse]
  split
  · exact ⟨h, trivial⟩
  · exact gone_fit hutters h

theorem answer_fit (registry : Registry) (payload leftover : Bytes) :
    Fit Q (ing.answer env registry conn payload leftover) := by
  rw [Ingest.answer]
  split
  · exact refuse_fit hutters h _
  · next accepted hcheck =>
    split
    · split
      · exact refuse_fit hutters h _
      · exact ⟨h, checkFrame_ascii hcheck⟩
    · exact ⟨h, checkFrame_ascii hcheck⟩

theorem serve_fit (authed : Bool) {imei : Str} (himei : Ascii imei)
    (buf : Bytes) : Fit Q (ing.serve env conn.peer authed imei buf) := by
  have hloop := frameLoop_carries hutters authed (iterFrames buf).1 himei h
  rw [Ingest.serve]
  rcases hl : ing.frameLoop env conn.peer authed imei (iterFrames buf).1 with ⟨ing', id, _ | e⟩
  · rw [hl] at hloop
    exact hloop
  · rw [hl] at hloop
    exact ⟨cleanup_carries hutters hloop.2 hloop.1, trivial⟩

theorem resume_fit (hphase : conn.phase.Spelled) {input : Input}
    {p : Ingest × Phase} (hr : ing.resume env conn input = some p) : Fit Q p := by
  have hgone := gone_fit hutters h
  cases input with
  | drained ok =>
    cases hc : conn.phase with
    | challenging =>
      simp only [Ingest.resume, hc] at hr
      split at hr <;> obtain rfl := Option.some.inj hr
      · exact ⟨h, trivial⟩
      · exact hgone
    | greeting accepted =>
      rw [hc] at hphase
      simp only [Ingest.resume, hc] at hr
      split at hr <;> obtain rfl := Option.some.inj hr
      · exact ⟨h, hphase⟩
      · exact hgone
    | denying =>
      simp only [Ingest.resume, hc] at hr
      exact Option.some.inj hr ▸ hgone
    | reading buf | serving a i b | closed => simp [Ingest.resume, hc] at hr
  | recv chunk registry =>
    by_cases hchunk : chunk = []
    · simp [Ingest.resume, hchunk] at hr
    cases hc : conn.phase with
    | reading buf =>
      simp only [Ingest.resume, hc, if_neg hchunk] at hr
      split at hr <;> obtain rfl := Option.some.inj hr
      · exact ⟨h, trivial⟩
      · exact refuse_fit hutters h _
      · exact answer_fit hutters h registry _ _
    | serving authed imei buf =>
      rw [hc] at hphase
      simp only [Ingest.resume, hc, if_neg hchunk] at hr
      exact Option.some.inj hr ▸ serve_fit hutters h authed hphase (buf ++ chunk)
    | challenging | greeting accepted | denying | closed => simp [Ingest.resume, hc, hchunk] at hr
  | ended ending =>
    cases hc : conn.phase with
    | reading buf =>
      simp only [Ingest.resume, hc] at hr
      exact Option.some.inj hr ▸ refuse_fit hutters h _
    | serving authed imei buf =>
      rw [hc] at hphase
      simp only [Ingest.resume, hc] at hr
      obtain rfl := Option.some.inj hr
      exact ⟨cleanup_carries hutters hphase h, trivial⟩
    | challenging | greeting accepted | denying | closed => simp [Ingest.resume, hc] at hr

end Resume

end Steps

section Runs

variable {env : Env} {Q : Call → Prop}

structure System.Legible (env : Env) (Q : Call → Prop) (s : System) : Prop where
  calls : s.ing.Carries Q
  conns : ∀ c conn, s.conns c = some conn → Utters env conn.peer Q ∧ conn.phase.Spelled

theorem opening_spelled (mode : Auth.Mode) : mode.opening.Spelled := by
  cases mode with
  | disabled => exact (by decide : Ascii (lit "unknown"))
  | optional => exact trivial
  | required => exact trivial

theorem legible_step {s s' : System} {e : Event} (h : s.Legible env Q)
    (hpeer : ∀ c peer nonce, e = .accept c peer nonce → Utters env peer Q)
    (hs : System.step env s e = some s') : s'.Legible env Q := by
  obtain ⟨c, peer, nonce, ing', phase, rfl, -, rfl, hquiet, -, hphase⟩ |
    ⟨c, input, conn, ing', phase, rfl, hconn, hr, rfl⟩ := step_cases hs
  · refine ⟨?_, fun c' conn hc' ↦ ?_⟩
    · intro call hcall
      have hcalls : ing'.calls = s.ing.calls := by simpa using hquiet.calls
      exact h.calls call (hcalls ▸ hcall)
    · rcases settle_some hc' with ⟨-, rfl⟩ | ⟨-, hc'⟩
      · refine ⟨hpeer c peer nonce rfl, ?_⟩
        rcases hphase with rfl | rfl
        · exact opening_spelled env.mode
        · exact trivial
      · exact h.conns c' conn hc'
  · obtain ⟨hutters, hspelled⟩ := h.conns c conn hconn
    obtain ⟨hcarries, hphase⟩ := resume_fit hutters h.calls hspelled hr
    refine ⟨hcarries, fun c' conn' hc' ↦ ?_⟩
    rcases settle_some hc' with ⟨-, rfl⟩ | ⟨-, hc'⟩
    · exact ⟨hutters, hphase⟩
    · exact h.conns c' conn' hc'

/-- What holds of each call that a connection can make holds of all calls of every run. -/
theorem run_legible {maxConcurrent maxPerMinute : ℤ} {es : List Event} {s : System}
    (hpeers : ∀ c peer nonce, Event.accept c peer nonce ∈ es → Utters env peer Q)
    (hrun : run (System.step env) (.init maxConcurrent maxPerMinute) es = some s) :
    s.Legible env Q := by
  induction es using List.reverseRecOn generalizing s with
  | nil =>
    obtain rfl := Option.some.inj hrun
    refine ⟨?_, ?_⟩
    · simp [Ingest.Carries, System.init, Ingest.init]
    · simp [System.init]
  | append_singleton es e ih =>
    obtain ⟨m, hm, he⟩ := (run_concat _).mp hrun
    have hlegible := ih (fun c peer nonce h ↦ hpeers c peer nonce (List.mem_append_left _ h)) hm
    refine legible_step hlegible ?_ he
    rintro c peer nonce rfl
    exact hpeers c peer nonce (by simp)

theorem delivered_mem {n : ℕ} {calls : List Call} {m : Message} (h : m ∈ delivered env n calls) :
    ∃ call ∈ calls, call.message = m := by
  induction calls generalizing n with
  | nil => cases h
  | cons call calls ih =>
    rw [delivered] at h
    rcases List.mem_append.mp h with h | h
    · split at h
      · exact ⟨call, List.mem_cons_self, (List.mem_singleton.mp h).symm⟩
      · cases h
    · obtain ⟨call', hcall', hm⟩ := ih h
      exact ⟨call', List.mem_cons_of_mem _ hcall', hm⟩

theorem run_tables {maxConcurrent maxPerMinute : ℤ} {es : List Event} {s : System}
    (hrun : run (System.step env) (.init maxConcurrent maxPerMinute) es = some s) :
    Tables env s := by
  refine run_induction (I := fun _ s ↦ Tables env s) (tables_init maxConcurrent maxPerMinute) ?_
    (throughout_true es) hrun
  intro es m e m' _ h _ hs
  exact tables_step h hs

end Runs

end OpusFleet.Server
