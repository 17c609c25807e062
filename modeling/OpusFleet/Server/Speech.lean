import OpusFleet.Server.Dispatch

namespace OpusFleet.Server

open Python Library Protocol

section Fields

def Call.field (call : Call) (name : Str) : Option Value :=
  match call.value with
  | .json (.dict entries) => Assoc.get entries name
  | _ => none

def Call.event (call : Call) : Option Str :=
  match call.field (lit "event") with
  | some (.str event) => some event
  | _ => none

def Call.Announces (call : Call) (id : Str) : Prop :=
  call.topic = .events ∧ call.key = id ∧ call.event = some (lit "connect")

instance (call : Call) (id : Str) : Decidable (call.Announces id) :=
  inferInstanceAs (Decidable (_ ∧ _ ∧ _))

def Call.Retires (call : Call) (id : Str) : Prop :=
  call.topic = .events ∧ call.key = id ∧ call.event = some (lit "disconnect")

/-- The message is audio, a report or a connect event of the device `id`, by its key
or by the `imei` in its JSON. -/
def Call.Attributes (call : Call) (id : Str) : Prop :=
  (call.topic = .audio ∨ call.topic = .stat ∨
      call.topic = .events ∧ call.event = some (lit "connect")) ∧
    (call.key = id ∨ call.field (lit "imei") = some (.str id))

variable (call : Call) {id x : Str} {peer : Peer}

theorem timeless_field {name : Str} (h : name ≠ lit "at") :
    call.timeless.field name = call.field name := by
  rcases call with ⟨topic, key, bytes | value⟩
  · rfl
  · cases value with
    | dict entries => exact Assoc.get_erase_ne entries h
    | _ => rfl

theorem timeless_event : call.timeless.event = call.event := by
  rw [Call.event, Call.event, timeless_field call (by decide)]

theorem event_eq {event : Str} :
    call.event = some event ↔ call.field (lit "event") = some (.str event) := by
  rw [Call.event]
  split
  · next h => simp [h]
  · next h => simpa using fun he ↦ h _ he

theorem announces_timeless : call.timeless.Announces id ↔ call.Announces id := by
  rw [Call.Announces, Call.Announces, timeless_event]
  rfl

theorem retires_timeless : call.timeless.Retires id ↔ call.Retires id := by
  rw [Call.Retires, Call.Retires, timeless_event]
  rfl

theorem attributes_timeless : call.timeless.Attributes id ↔ call.Attributes id := by
  rw [Call.Attributes, Call.Attributes, timeless_event, timeless_field call (by decide)]
  rfl

@[simp] theorem connect_event : (connectCall id peer).event = some (lit "connect") := rfl

@[simp] theorem disconnect_event : (disconnectCall id).event = some (lit "disconnect") := rfl

theorem connect_ne_disconnect : lit "connect" ≠ lit "disconnect" := by decide

variable {call} in
theorem Call.Announces.not_retires (h : call.Announces id) : ¬ call.Retires x :=
  fun hx ↦ connect_ne_disconnect (Option.some.inj (h.2.2.symm.trans hx.2.2))

variable {call} in
theorem Call.Retires.not_announces (h : call.Retires id) : ¬ call.Announces x :=
  fun hx ↦ hx.not_retires h

variable {call} in
theorem silent_of_topic (h : call.topic ≠ .events) (x : Str) :
    ¬ call.Announces x ∧ ¬ call.Retires x :=
  ⟨fun ha ↦ h ha.1, fun hr ↦ h hr.1⟩

theorem connect_announces : (connectCall id peer).Announces x ↔ id = x := by
  constructor
  · exact fun h ↦ h.2.1
  · exact fun h ↦ ⟨rfl, h, rfl⟩

theorem disconnect_retires : (disconnectCall id).Retires x ↔ id = x := by
  constructor
  · exact fun h ↦ h.2.1
  · exact fun h ↦ ⟨rfl, h, rfl⟩

theorem disconnect_not_announces : ¬ (disconnectCall id).Announces x := by
  simp [Call.Announces, connect_ne_disconnect.symm]

theorem disconnect_not_attributes : ¬ (disconnectCall id).Attributes x := by
  rintro ⟨ha | hs | ⟨-, he⟩, -⟩
  · simp [disconnectCall] at ha
  · simp [disconnectCall] at hs
  · simp [connect_ne_disconnect.symm] at he

/-- The calls a connection makes on frames while its id is `id`. -/
inductive Speaks (peer : Peer) (id : Str) : Call → Prop
  | connect : Speaks peer id (connectCall id peer)
  | stat (entries : List (Str × Value)) : Speaks peer id (statCall id entries)
  | audio (payload : Bytes) : Speaks peer id (audioCall id payload)

variable {call}

theorem Speaks.key (h : Speaks peer id call) : call.key = id := by
  cases h <;> rfl

theorem Speaks.attributes (h : Speaks peer id call) (hx : call.Attributes x) : x = id := by
  cases h with
  | connect =>
    have hf : (connectCall id peer).field (lit "imei") = some (.str id) := by
      simp [connectCall, Call.field, Assoc.get]
    rcases hx.2 with hk | hi
    · exact hk.symm
    · simpa [hf] using hi.symm
  | stat entries =>
    have hf : (statCall id entries).field (lit "imei") = some (.str id) := by
      simp [statCall, Call.field]
    rcases hx.2 with hk | hi
    · exact hk.symm
    · simpa [hf] using hi.symm
  | audio payload =>
    rcases hx.2 with hk | hi
    · exact hk.symm
    · simp [audioCall, Call.field] at hi

theorem Speaks.announces (h : Speaks peer id call) (hx : call.Announces x) :
    id = x ∧ call = connectCall x peer := by
  cases h with
  | connect =>
    obtain rfl := connect_announces.mp hx
    exact ⟨rfl, rfl⟩
  | stat entries => simp [Call.Announces, statCall] at hx
  | audio payload => simp [Call.Announces, audioCall] at hx

theorem Speaks.not_retires (h : Speaks peer id call) : ¬ call.Retires x := by
  intro hx
  cases h with
  | connect => simp [Call.Retires, connect_ne_disconnect] at hx
  | stat entries => simp [Call.Retires, statCall] at hx
  | audio payload => simp [Call.Retires, audioCall] at hx

end Fields

section Transcripts

variable (limit : ℕ) (peer : Peer) (authed : Bool)

theorem classify_hello {limit : ℕ} {payload : Bytes} {id : Str}
    (h : classify limit payload = .ok (.hello id)) : id ≠ [] := by
  unfold classify at h
  split at h
  · simp only [Except.ok.injEq, Kind.hello.injEq] at h
    rw [← h]
    split
    · decide
    · assumption
  split at h
  · cases hp : parseAuth payload <;> simp [hp, Except.map] at h
  split at h
  · cases hp : parseStat limit (payload.drop statPrefix.length) <;> simp [hp, Except.map] at h
  · simp at h

theorem emits_speaks {imei id : Str} {payload : Bytes} {call : Call}
    (h : emits limit peer authed imei payload = some (id, call)) :
    Speaks peer id call ∧ (call = connectCall id peer ∨ id = imei) ∧ (authed = true → id = imei) ∧
      (imei ≠ [] → id ≠ []) := by
  unfold emits at h
  rcases hc : classify limit payload with e | kind
  · simp [hc] at h
  rcases kind with value | ⟨deviceId, mac⟩ | value | p
  · by_cases hid : authed = true ∧ value ≠ imei
    · simp [hc, hid] at h
    · simp only [hc, if_neg hid, Option.some.injEq, Prod.mk.injEq] at h
      obtain ⟨rfl, rfl⟩ := h
      exact ⟨.connect, .inl rfl, fun ha ↦ by_contra fun hne ↦ hid ⟨ha, hne⟩,
        fun _ ↦ classify_hello hc⟩
  · simp [hc] at h
  · cases value with
    | dict entries =>
      simp only [hc, Option.some.injEq, Prod.mk.injEq] at h
      obtain ⟨rfl, rfl⟩ := h
      exact ⟨.stat entries, .inr rfl, fun _ ↦ rfl, id⟩
    | _ => simp [hc] at h
  · simp only [hc, Option.some.injEq, Prod.mk.injEq] at h
    obtain ⟨rfl, rfl⟩ := h
    exact ⟨.audio payload, .inr rfl, fun _ ↦ rfl, id⟩

/-- The calls on frames and the id after them: an authenticated socket speaks for its id
alone, and on any other the last id announced is the one that is kept. -/
structure Talk (imei : Str) (calls : List Call) (last : Str) : Prop where
  speaks : ∀ call ∈ calls, ∃ id, Speaks peer id call
  loyal : authed = true → (∀ call ∈ calls, Speaks peer imei call) ∧ last = imei
  kept : connectCall last peer ∈ calls ∨ last = imei ∧ ∀ id, connectCall id peer ∉ calls
  named : imei ≠ [] → last ≠ [] ∧ ∀ call ∈ calls, call.key ≠ []

theorem Talk.silent (imei : Str) : Talk peer authed imei [] imei :=
  ⟨by simp, by simp, by simp, by simp⟩

theorem Talk.cons {imei id last : Str} {call : Call} {calls : List Call}
    (hspeaks : Speaks peer id call) (hid : call = connectCall id peer ∨ id = imei)
    (hloyal : authed = true → id = imei) (hnamed : imei ≠ [] → id ≠ [])
    (h : Talk peer authed id calls last) : Talk peer authed imei (call :: calls) last := by
  refine ⟨?_, ?_, ?_, ?_⟩
  · intro c hc
    rcases List.mem_cons.mp hc with rfl | hc
    · exact ⟨id, hspeaks⟩
    · exact h.speaks c hc
  · intro ha
    obtain rfl := hloyal ha
    obtain ⟨hs, hl⟩ := h.loyal ha
    refine ⟨?_, hl⟩
    intro c hc
    rcases List.mem_cons.mp hc with rfl | hc
    · exact hspeaks
    · exact hs c hc
  · rcases h.kept with hk | ⟨rfl, hnone⟩
    · exact .inl (List.mem_cons_of_mem _ hk)
    by_cases hcall : call = connectCall last peer
    · exact .inl (by simp [hcall])
    · refine .inr ⟨hid.resolve_left hcall, ?_⟩
      intro x hx
      rcases List.mem_cons.mp hx with hx | hx
      · obtain ⟨rfl, he⟩ := hspeaks.announces (hx ▸ connect_announces.mpr rfl)
        exact hcall he
      · exact hnone x hx
  · intro himei
    obtain ⟨hlast, hkeys⟩ := h.named (hnamed himei)
    refine ⟨hlast, ?_⟩
    intro c hc
    rcases List.mem_cons.mp hc with rfl | hc
    · exact hspeaks.key.symm ▸ hnamed himei
    · exact hkeys c hc

theorem transcript_talk (imei : Str) (frames : List Bytes) :
    ∃ calls, transcript limit peer authed imei frames =
        calls ++ [disconnectCall (lastId limit peer authed imei frames)] ∧
      Talk peer authed imei calls (lastId limit peer authed imei frames) := by
  induction frames generalizing imei with
  | nil => exact ⟨[], rfl, .silent peer authed imei⟩
  | cons f frames ih =>
    rw [transcript, lastId]
    by_cases hr : raises limit f = true
    · rw [if_pos hr, if_pos hr]
      exact ⟨[], rfl, .silent peer authed imei⟩
    · rw [if_neg hr, if_neg hr]
      cases hem : emits limit peer authed imei f with
      | none =>
        have hid : idAfter limit peer authed imei f = imei := by simp [idAfter, hem]
        rw [hid]
        exact ih imei
      | some p =>
        obtain ⟨id, call⟩ := p
        have hid : idAfter limit peer authed imei f = id := by simp [idAfter, hem]
        obtain ⟨hspeaks, hname, hloyal, hnamed⟩ := emits_speaks limit peer authed hem
        obtain ⟨calls, he, ht⟩ := ih id
        rw [hid]
        exact ⟨call :: calls, congrArg (call :: ·) he, ht.cons _ _ hspeaks hname hloyal hnamed⟩

end Transcripts

section Presence

/-- Whether the last event about `id`, connect or disconnect, says that it is online. -/
def Present (calls : List Call) (id : Str) : Prop :=
  calls.foldl (fun shown call ↦ call.Announces id ∨ shown ∧ ¬ call.Retires id) False

theorem present_concat (calls : List Call) (call : Call) (id : Str) :
    Present (calls ++ [call]) id ↔ call.Announces id ∨ Present calls id ∧ ¬ call.Retires id := by
  simp [Present]

/-- The table of online devices says what the events so far say. -/
def Ingest.Consistent (ing : Ingest) : Prop :=
  ∀ id, (ing.online.get id).isSome = true ↔ Present ing.calls id

variable (env : Env) (peer : Peer) {ing : Ingest}

@[simp] theorem produce_calls (ing : Ingest) (topic : Topic) (key : Str) (value : Payload) :
    (ing.produce env topic key value).calls = ing.calls ++ [⟨topic, key, value⟩] := by
  rw [Ingest.produce]
  cases env.broker ing.calls.length <;> rfl

@[simp] theorem produce_online (ing : Ingest) (topic : Topic) (key : Str) (value : Payload) :
    (ing.produce env topic key value).online = ing.online := by
  rw [Ingest.produce]
  cases env.broker ing.calls.length <;> rfl

theorem hello_consistent (h : ing.Consistent) (imei : Str) :
    (ing.hello env peer imei).Consistent := by
  intro id
  have hcall (t : Value) :
    ∀ id, (⟨.events, imei, Ingest.connectEvent imei peer t⟩ : Call).Announces id ↔
      imei = id := by
    intro id
    exact ⟨fun h ↦ h.2.1, fun h ↦ ⟨rfl, h, rfl⟩⟩
  have hnot (t : Value) : ¬ (⟨.events, imei, Ingest.connectEvent imei peer t⟩ : Call).Retires id :=
    ((hcall t imei).mpr rfl).not_retires
  rw [Ingest.hello, produce_online, produce_calls, present_concat, hcall]
  simp only [Ingest.tick, hnot, not_false_eq_true, and_true, Dict.get_set, ← h id]
  by_cases hid : id = imei
  · simp [hid]
  · simp [hid, Ne.symm hid]

theorem report_consistent (h : ing.Consistent) {ing' : Ingest} (honline : ing'.online = ing.online)
    {call : Call} (hcalls : ing'.calls = ing.calls ++ [call]) (htopic : call.topic ≠ .events) :
    ing'.Consistent := by
  intro id
  rw [honline, hcalls, present_concat, h id]
  simp [silent_of_topic htopic]

theorem cleanup_consistent (h : ing.Consistent) (imei : Str) :
    (ing.cleanup env peer imei).Consistent := by
  intro id
  have hcall (t : Value) :
    ∀ id, (⟨.events, imei, Ingest.disconnectEvent imei t⟩ : Call).Retires id ↔
      imei = id := by
    intro id
    exact ⟨fun h ↦ h.2.1, fun h ↦ ⟨rfl, h, rfl⟩⟩
  have hnot (t : Value) : ¬ (⟨.events, imei, Ingest.disconnectEvent imei t⟩ : Call).Announces id :=
    ((hcall t imei).mpr rfl).not_announces
  rw [Ingest.cleanup, produce_online, produce_calls, present_concat, hcall]
  simp only [Ingest.tick, hnot, false_or, ← h id]
  by_cases hid : id = imei
  · simp [hid]
  · simp [hid, Ne.symm hid]

theorem dispatch_consistent (authed : Bool) (h : ing.Consistent) (imei : Str) (payload : Bytes) :
    (ing.dispatch env peer authed imei payload).1.Consistent := by
  rw [Ingest.dispatch]
  split
  iterate 3 exact h
  · split
    · exact h
    · exact hello_consistent env peer h _
  · exact report_consistent h (produce_online _ _ _ _ _) (produce_calls _ _ _ _ _) (by simp)
  · exact h
  · exact report_consistent h (produce_online _ _ _ _ _) (produce_calls _ _ _ _ _) (by simp)

theorem frameLoop_consistent (authed : Bool) (frames : List Bytes)
    (h : ing.Consistent) (imei : Str) :
    (ing.frameLoop env peer authed imei frames).1.Consistent := by
  induction frames generalizing ing imei with
  | nil => exact h
  | cons f frames ih =>
    have hd := @dispatch_consistent env peer { ing with dispatched :=
      ing.dispatched ++ [f] } authed h
      imei f
    rw [Ingest.frameLoop]
    split
    · next he =>
      rw [he] at hd
      exact ih hd _
    · next he =>
      rw [he] at hd
      exact hd

end Presence

end OpusFleet.Server
