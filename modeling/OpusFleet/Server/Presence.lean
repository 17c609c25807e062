import OpusFleet.Server.Api
import OpusFleet.Server.Connections

namespace OpusFleet.Server

open Python Library Protocol Auth Library.Runs

namespace System

def Open (s : System) (c : ℕ) : Prop := ∃ conn, s.conns c = some conn ∧ conn.phase ≠ .closed

/-- Connection `c` has produced a connect event for `id`. -/
def Connected (s : System) (c : ℕ) (id : Str) : Prop :=
  ∃ call, (c, call) ∈ s.log ∧ call.Announces id

def Single (s : System) : Prop := ∀ c x y, s.Connected c x → s.Connected c y → x = y

/-- The event ends a connection under an id for which another open one
has produced a connect event. -/
def Forgets (env : Env) (s : System) (e : Event) : Prop :=
  ∃ c c' conn input id, e = .wake c input ∧ s.conns c = some conn ∧
    conn.farewell env input = some id ∧
    c' ≠ c ∧ s.Open c' ∧ s.Connected c' id

end System

section Wellmade

variable {call : Call} {peer : Peer} {id : Str}

theorem Speaks.wellmade (h : Speaks peer id call) (hid : id ≠ []) : Api.Wellmade call := by
  cases h with
  | connect =>
    refine ⟨hid, fun _ ↦ ⟨_, rfl, rfl⟩, fun _ ↦ .inl (connect_announces.mpr rfl), ?_⟩
    simp [connectCall]
  | stat entries =>
    refine ⟨hid, fun _ ↦ ⟨_, rfl, Assoc.get_set_self _ _ _⟩, ?_, ?_⟩ <;> simp [statCall]
  | audio payload => refine ⟨hid, ?_, ?_, ?_⟩ <;> simp [audioCall]

theorem wellmade_disconnect (hid : id ≠ []) : Api.Wellmade (disconnectCall id) := by
  refine ⟨hid, fun _ ↦ ⟨_, rfl, rfl⟩, fun _ ↦ .inr (disconnect_retires.mpr rfl), ?_⟩
  simp [disconnectCall]

theorem wellmade_timeless (h : Api.Wellmade call.timeless) : Api.Wellmade call := by
  refine ⟨h.key, ?_, ?_, h.topic⟩
  · intro hsub
    obtain ⟨entries, hv, hi⟩ := h.value hsub
    rcases call with ⟨topic, key, bytes | value⟩
    · simp [Call.timeless, Payload.timeless] at hv
    · cases value with
      | dict es =>
        obtain rfl : Assoc.erase es (lit "at") = entries := by
          simpa [Call.timeless, Payload.timeless] using hv
        exact ⟨es, rfl, (Assoc.get_erase_ne es (by decide)).symm.trans hi⟩
      | _ => simp [Call.timeless, Payload.timeless] at hv
  · intro ht
    rw [← announces_timeless, ← retires_timeless]
    exact h.event ht

theorem Talk.wellmade {authed : Bool} {imei last : Str} {new : List Call}
    (h : Talk peer authed imei (new.map Call.timeless) last) (himei : imei ≠ []) :
    ∀ call ∈ new, Api.Wellmade call := by
  intro call hcall
  have hmem := List.mem_map_of_mem (f := Call.timeless) hcall
  obtain ⟨id, hs⟩ := h.speaks _ hmem
  exact wellmade_timeless (hs.wellmade (hs.key ▸ (h.named himei).2 _ hmem))

end Wellmade

section Talk

variable {peer : Peer} {authed : Bool} {imei last id : Str} {new : List Call}

theorem Talk.announces (h : Talk peer authed imei (new.map Call.timeless) last) :
    (∃ call ∈ new, call.Announces id) ↔ connectCall id peer ∈ new.map Call.timeless := by
  constructor
  · rintro ⟨call, hcall, ha⟩
    have hmem := List.mem_map_of_mem (f := Call.timeless) hcall
    obtain ⟨x, hs⟩ := h.speaks _ hmem
    rw [← (hs.announces ((announces_timeless call).mpr ha)).2]
    exact hmem
  · intro hmem
    obtain ⟨call, hcall, he⟩ := List.mem_map.mp hmem
    refine ⟨call, hcall, (announces_timeless call).mp ?_⟩
    rw [he, connect_announces]

theorem Talk.not_retires (h : Talk peer authed imei (new.map Call.timeless) last) {call : Call}
    (hcall : call ∈ new) : ¬ call.Retires id := by
  obtain ⟨x, hs⟩ := h.speaks _ (List.mem_map_of_mem hcall)
  rw [← retires_timeless]
  exact hs.not_retires

theorem present_talk (calls : List Call) (h : ∀ call ∈ new, ¬ call.Retires id) :
    Present (calls ++ new) id ↔ Present calls id ∨ ∃ call ∈ new, call.Announces id := by
  induction new using List.reverseRecOn with
  | nil => simp
  | append_singleton new call ih =>
    have hlast : ¬ call.Retires id := h call (by simp)
    rw [← List.append_assoc, present_concat, ih fun c hc ↦ h c (List.mem_append_left _ hc)]
    simp only [hlast, not_false_eq_true, and_true, List.mem_append, List.mem_singleton]
    constructor
    · rintro (ha | hp | ⟨c, hc, ha⟩)
      · exact .inr ⟨call, .inr rfl, ha⟩
      · exact .inl hp
      · exact .inr ⟨c, .inl hc, ha⟩
    · rintro (hp | ⟨c, hc | rfl, ha⟩)
      · exact .inr (.inl hp)
      · exact .inr (.inr ⟨c, hc, ha⟩)
      · exact .inl ha

end Talk

section Invariant

variable {env : Env} {s s' : System} {c : ℕ} {conn conn' : Connection} {ing' : Ingest}
    {new : List Call}

theorem settle_connected (h : Produced env s.ing new ing') (c' : ℕ) (id : Str) :
    (s.settle c conn ing').Connected c' id ↔
      s.Connected c' id ∨ c' = c ∧ ∃ call ∈ new, call.Announces id := by
  simp only [System.Connected, settle_log h, List.mem_append, List.mem_map, Prod.mk.injEq]
  constructor
  · rintro ⟨call, hl | ⟨call', hn, rfl, rfl⟩, ha⟩
    · exact .inl ⟨call, hl, ha⟩
    · exact .inr ⟨rfl, call', hn, ha⟩
  · rintro (⟨call, hl, ha⟩ | ⟨rfl, call, hn, ha⟩)
    · exact ⟨call, .inl hl, ha⟩
    · exact ⟨call, .inr ⟨call, hn, rfl, rfl⟩, ha⟩

theorem settle_open (c' : ℕ) : (s.settle c conn ing').Open c' ↔
    if c' = c then conn.phase ≠ .closed else s.Open c' := by
  rw [System.Open, settle_conns]
  split
  · simp
  · rfl

structure Tables (env : Env) (s : System) : Prop where
  queue : s.ing.queue = delivered env 0 s.ing.calls
  consistent : s.ing.Consistent
  wellmade : ∀ call ∈ s.ing.calls, Api.Wellmade call
  named : ∀ c conn authed imei buf, s.conns c = some conn → conn.phase = .serving authed imei buf →
    imei ≠ []
  unborn : ∀ c id, s.conns c = none → ¬ s.Connected c id
  own : ∀ c conn, s.conns c = some conn → conn.phase ≠ .closed → (∀ id, ¬ s.Connected c id) ∨
    ∃ authed imei buf, conn.phase = .serving authed imei buf ∧ s.Connected c imei

theorem tables_init (maxConcurrent maxPerMinute : ℤ) :
    Tables env (.init maxConcurrent maxPerMinute) where
  queue := rfl
  consistent id := by simp [System.init, Ingest.init, Present]
  wellmade := by simp [System.init, Ingest.init]
  named c conn authed imei buf h := by simp [System.init] at h
  unborn c id h := by simp [System.Connected, System.init]
  own c conn h := by simp [System.init] at h

theorem Produced.queue_delivered (h : Produced env s.ing new ing')
    (hq : s.ing.queue = delivered env 0 s.ing.calls) : ing'.queue = delivered env 0 ing'.calls := by
  rw [h.queue, h.calls, hq, delivered_append, Nat.zero_add]

theorem Produced.unique {ing : Ingest} {new' : List Call} (h : Produced env ing new ing')
    (h' : Produced env ing new' ing') : new = new' :=
  List.append_cancel_left (h.calls.symm.trans h'.calls)

theorem Turn.consistent {ing : Ingest} {input : Input} {phase : Phase}
    (h : Turn env ing conn input ing' phase) :
    ing.Consistent → ing'.Consistent := by
  cases h <;> assumption

theorem turn_own {input : Input} {phase : Phase} (hturn : Turn env s.ing conn input ing' phase)
    (hnew : Produced env s.ing new ing') (hopen : phase ≠ .closed)
    (hown : (∀ id, ¬ s.Connected c id) ∨
      ∃ authed imei buf, conn.phase = .serving authed imei buf ∧ s.Connected c imei) :
    (∀ id, ¬ (s.settle c conn' ing').Connected c id) ∨ ∃ authed imei buf,
      phase = .serving authed imei buf ∧ (s.settle c conn' ing').Connected c imei := by
  simp only [settle_connected hnew]
  cases hturn with
  | waits hphase hquiet =>
    obtain rfl := hnew.unique hquiet
    refine .inl fun id ↦ ?_
    rcases hown with hnone | ⟨a, i, b, hserving, -⟩
    · simp [hnone id]
    · exact absurd hserving (hphase a i b)
  | leaves => exact absurd rfl hopen
  | closes => exact absurd rfl hopen
  | serves hserving hserve _ htalk =>
    obtain rfl := hnew.unique hserve
    rcases htalk.kept with hk | ⟨rfl, hnone⟩
    · exact .inr ⟨_, _, _, rfl, .inr ⟨trivial, htalk.announces.mpr hk⟩⟩
    · have hsilent (id : Str) : ¬ ∃ call ∈ new, call.Announces id :=
        fun ha ↦ hnone id (htalk.announces.mp ha)
      simp only [hsilent, and_false, or_false]
      refine hown.imp id ?_
      rintro ⟨a, i, b, hserving', ha⟩
      obtain ⟨rfl, rfl, -⟩ : a = _ ∧ i = _ ∧ _ := by simpa using hserving'.symm.trans hserving
      exact ⟨_, _, _, rfl, ha⟩

theorem turn_wellmade {input : Input} {phase : Phase} (hturn : Turn env s.ing conn input ing' phase)
    (hnew : Produced env s.ing new ing')
    (hnamed : ∀ authed imei buf, conn.phase = .serving authed imei buf → imei ≠ []) :
    (∀ call ∈ new, Api.Wellmade call) ∧
      ∀ authed imei buf, phase = .serving authed imei buf → imei ≠ [] := by
  have hbye {bye : Call} {id : Str} (hid : id ≠ []) (h : bye.timeless = disconnectCall id) :
      Api.Wellmade bye := wellmade_timeless (h ▸ wellmade_disconnect hid)
  cases hturn with
  | waits hphase hquiet _ hready =>
    obtain rfl := hnew.unique hquiet
    exact ⟨by simp, hready.2⟩
  | leaves hphase hleave _ htimeless =>
    obtain rfl := hnew.unique hleave
    refine ⟨?_, by simp⟩
    intro call hcall
    obtain rfl := List.mem_singleton.mp hcall
    exact hbye (by decide) htimeless
  | serves hserving hserve _ htalk =>
    obtain rfl := hnew.unique hserve
    have himei := hnamed _ _ _ hserving
    refine ⟨htalk.wellmade himei, ?_⟩
    intro a i b he
    obtain ⟨-, rfl, -⟩ : _ ∧ _ = i ∧ _ := by simpa using he
    exact (htalk.named himei).1
  | closes hserving hclose _ htalk htimeless =>
    obtain rfl := hnew.unique hclose
    have himei := hnamed _ _ _ hserving
    refine ⟨?_, by simp⟩
    intro call hcall
    rcases List.mem_append.mp hcall with hcall | hcall
    · exact htalk.wellmade himei call hcall
    · obtain rfl := List.mem_singleton.mp hcall
      exact hbye (htalk.named himei).1 htimeless

theorem opening_named {mode : Mode} {authed : Bool} {imei : Str} {buf : Bytes}
    (h : mode.opening = .serving authed imei buf) : imei ≠ [] := by
  cases mode with
  | disabled =>
    obtain ⟨-, rfl, -⟩ : _ ∧ lit "unknown" = imei ∧ _ := by simpa [Mode.opening] using h
    decide
  | optional => simp [Mode.opening] at h
  | required => simp [Mode.opening] at h

theorem tables_accept (h : Tables env s) {peer : Peer} {nonce : Nonce} {phase : Phase}
    (hfresh : s.conns c = none)
    (hquiet : Produced env s.ing [] ing') (honline : ing'.online = s.ing.online)
    (hphase : phase = env.mode.opening ∨ phase = .closed) :
    Tables env (s.settle c ⟨peer, nonce, phase⟩ ing') := by
  have hcalls : ing'.calls = s.ing.calls := by simpa using hquiet.calls
  have hsame (c' : ℕ) (id : Str) : (s.settle c ⟨peer, nonce, phase⟩ ing').Connected c' id ↔
      s.Connected c' id := by
    simp [settle_connected hquiet]
  refine ⟨hquiet.queue_delivered h.queue, ?_, ?_, ?_, ?_, ?_⟩
  · intro id
    simp only [System.settle, honline, hcalls]
    exact h.consistent id
  · simpa only [System.settle, hcalls] using h.wellmade
  · intro c' conn authed imei buf hc' hserving
    rcases settle_some hc' with ⟨-, rfl⟩ | ⟨-, hc'⟩
    · rcases hphase with rfl | rfl
      · exact opening_named hserving
      · cases hserving
    · exact h.named c' conn authed imei buf hc' hserving
  · intro c' id hc' ha
    exact h.unborn c' id (settle_none hc').2 ((hsame c' id).mp ha)
  · intro c' conn hc' hopen
    simp only [hsame]
    rcases settle_some hc' with ⟨rfl, -⟩ | ⟨-, hc'⟩
    · exact .inl fun id ↦ h.unborn c' id hfresh
    · exact h.own c' conn hc' hopen

theorem tables_wake (h : Tables env s) {input : Input} {phase : Phase}
    (hconn : s.conns c = some conn) (hr : s.ing.resume env conn input = some (ing', phase)) :
    Tables env (s.settle c { conn with phase := phase } ing') := by
  have hturn := resume_turn hr
  obtain ⟨new, hnew⟩ := hturn.produced
  obtain ⟨hwell, hnamed⟩ := turn_wellmade hturn hnew fun a i b ↦ h.named c conn a i b hconn
  refine ⟨hnew.queue_delivered h.queue, hturn.consistent h.consistent, ?_, ?_, ?_, ?_⟩
  · intro call hcall
    simp only [System.settle, hnew.calls, List.mem_append] at hcall
    exact hcall.elim (h.wellmade call) (hwell call)
  · intro c' conn' authed imei buf hc' hserving
    rcases settle_some hc' with ⟨-, rfl⟩ | ⟨-, hc'⟩
    · exact hnamed authed imei buf hserving
    · exact h.named c' conn' authed imei buf hc' hserving
  · intro c' id hc'
    obtain ⟨hne, hc'⟩ := settle_none hc'
    simpa [settle_connected hnew, hne] using h.unborn c' id hc'
  · intro c' conn' hc' hopen
    rcases settle_some hc' with ⟨rfl, rfl⟩ | ⟨hne, hc'⟩
    · exact turn_own hturn hnew hopen (h.own c' conn hconn (resume_unclosed hr))
    · simpa [settle_connected hnew, hne] using h.own c' conn' hc' hopen

theorem tables_step {e : Event} (h : Tables env s) (hs : System.step env s e = some s') :
    Tables env s' := by
  obtain ⟨c, peer, nonce, ing', phase, rfl, hfresh, rfl, hquiet, honline, hphase⟩ |
    ⟨c, input, conn, ing', phase, rfl, hconn, hr, rfl⟩ := step_cases hs
  · exact tables_accept h hfresh hquiet honline hphase
  · exact tables_wake h hconn hr

end Invariant

section Exact

variable {env : Env} {s s' : System} {c : ℕ} {conn conn' : Connection} {ing' : Ingest}
    {new : List Call}

/-- An id counts as present if and only if an open connection has announced it. -/
def System.Exact (s : System) : Prop :=
  ∀ id, Present s.ing.calls id ↔ ∃ c, s.Open c ∧ s.Connected c id

def System.Sound (s : System) : Prop :=
  ∀ id, Present s.ing.calls id → ∃ c, s.Open c ∧ s.Connected c id

def System.Complete (s : System) : Prop :=
  ∀ id c, s.Open c → s.Connected c id → Present s.ing.calls id

theorem exact_iff : s.Exact ↔ s.Sound ∧ s.Complete := by
  constructor
  · intro hex
    refine ⟨fun id ↦ (hex id).mp, fun id c ho ha ↦ (hex id).mpr ⟨c, ho, ha⟩⟩
  · intro h id
    refine ⟨h.1 id, ?_⟩
    rintro ⟨c, ho, ha⟩
    exact h.2 id c ho ha

section Talks

variable (hopen' : conn'.phase ≠ .closed) (hnew : Produced env s.ing new ing')
  (htalk : ∀ call ∈ new, ∀ id, ¬ call.Retires id)
include hopen' hnew htalk

theorem sound_talks (hsound : s.Sound) : (s.settle c conn' ing').Sound := by
  intro id
  simp only [settle_connected hnew, settle_open]
  rw [System.settle, hnew.calls, present_talk _ fun call hc ↦ htalk call hc id]
  rintro (hp | ha)
  · obtain ⟨c', ho, ha⟩ := hsound id hp
    refine ⟨c', ?_, .inl ha⟩
    split
    · exact hopen'
    · exact ho
  · exact ⟨c, by simpa using hopen', .inr ⟨rfl, ha⟩⟩

omit hopen' in
theorem complete_talks (hopen : s.Open c) (hcomplete : s.Complete) :
    (s.settle c conn' ing').Complete := by
  intro id c' ho ha
  rw [settle_connected hnew] at ha
  rw [settle_open] at ho
  rw [System.settle, hnew.calls, present_talk _ fun call hc ↦ htalk call hc id]
  rcases ha with ha | ⟨-, ha⟩
  · refine .inl (hcomplete id c' ?_ ha)
    split at ho
    · next heq => exact heq ▸ hopen
    · exact ho
  · exact .inr ha

end Talks

section Closes

variable {last : Str} {bye : Call} (hnew : Produced env s.ing (new ++ [bye]) ing')
  (hbye : bye.timeless = disconnectCall last) (htalk : ∀ call ∈ new, ∀ id, ¬ call.Retires id)
include hnew hbye htalk

theorem present_closes (id : Str) : Present ing'.calls id ↔
    (Present s.ing.calls id ∨ ∃ call ∈ new, call.Announces id) ∧ last ≠ id := by
  have hretires : bye.Retires id ↔ last = id := by rw [← retires_timeless, hbye, disconnect_retires]
  have hannounces : ¬ bye.Announces id := by
    rw [← announces_timeless, hbye]
    exact disconnect_not_announces
  rw [hnew.calls, ← List.append_assoc, present_concat,
    present_talk _ fun call hc ↦ htalk call hc id, hretires]
  simp [hannounces]

theorem sound_closes (hlast : ∀ id, s.Connected c id ∨
    (∃ call ∈ new, call.Announces id) → id = last)
    (hsound : s.Sound) : (s.settle c conn' ing').Sound := by
  intro id hp
  obtain ⟨hp | ha, hne⟩ := (present_closes hnew hbye htalk id).mp hp
  · obtain ⟨c', ho, ha⟩ := hsound id hp
    have hcc : c' ≠ c := by
      rintro rfl
      exact hne (hlast id (.inl ha)).symm
    refine ⟨c', ?_, (settle_connected hnew c' id).mpr (.inl ha)⟩
    rwa [settle_open, if_neg hcc]
  · exact absurd (hlast id (.inr ha)).symm hne

theorem complete_closes (hclosed : conn'.phase = .closed)
    (hother : ∀ c' ≠ c, s.Open c' → ¬ s.Connected c' last) (hcomplete : s.Complete) :
    (s.settle c conn' ing').Complete := by
  intro id c' ho ha
  rw [settle_open] at ho
  have hcc : c' ≠ c := by
    rintro rfl
    simp [hclosed] at ho
  have ho' : s.Open c' := by simpa [hcc] using ho
  have ha' : s.Connected c' id := by simpa [settle_connected hnew, hcc] using ha
  refine (present_closes hnew hbye htalk id).mpr ⟨.inl (hcomplete id c' ho' ha'), ?_⟩
  rintro rfl
  exact hother c' hcc ho' ha'

end Closes

theorem resume_open {input : Input} {p : Ingest × Phase} (hconn : s.conns c = some conn)
    (hr : s.ing.resume env conn input = some p) : conn.phase ≠ .closed ∧ s.Open c :=
  ⟨resume_unclosed hr, conn, hconn, resume_unclosed hr⟩

theorem accept_connected (htab : Tables env s) (hfresh : s.conns c = none) {c' : ℕ} {id : Str}
    (ha : s.Connected c' id) : c' ≠ c := by
  rintro rfl
  exact htab.unborn c' id hfresh ha

theorem sound_step {e : Event} (htab : Tables env s) (hsound : s.Sound)
    (hs : System.step env s e = some s') (hsingle : s'.Single) : s'.Sound := by
  obtain ⟨c, peer, nonce, ing', phase, rfl, hfresh, rfl, hquiet, -, -⟩ |
    ⟨c, input, conn, ing', phase, rfl, hconn, hr, rfl⟩ := step_cases hs
  · intro id hp
    have hcalls : ing'.calls = s.ing.calls := by simpa using hquiet.calls
    rw [System.settle, hcalls] at hp
    obtain ⟨c', ho, ha⟩ := hsound id hp
    refine ⟨c', ?_, (settle_connected hquiet c' id).mpr (.inl ha)⟩
    rwa [settle_open, if_neg (accept_connected htab hfresh ha)]
  · obtain ⟨hphase, -⟩ := resume_open hconn hr
    have hown := htab.own c conn hconn hphase
    cases resume_turn hr with
    | waits houtside hquiet _ hready => exact sound_talks hready.1 hquiet (by simp) hsound
    | leaves houtside hleave _ hbye hends =>
      have hnew : Produced env s.ing ([] ++ [_]) ing' := hleave
      refine sound_closes hnew hbye (by simp) ?_ hsound
      rintro id (ha | ha)
      · rcases hown with hnone | ⟨a, i, b, hserving, -⟩
        · exact absurd ha (hnone id)
        · exact absurd hserving (houtside a i b)
      · simp at ha
    | serves hserving hserve _ htalk =>
      exact sound_talks (by simp) hserve (fun call hc id ↦ htalk.not_retires hc) hsound
    | @closes authed imei last buf talk bye hserving hclose _ htalk hbye hends =>
      refine sound_closes hclose hbye (fun call hc id ↦ htalk.not_retires hc) ?_ hsound
      have hlater {id : Str} (ha : s.Connected c id ∨ ∃ call ∈ talk, call.Announces id) :
          (s.settle c { conn with phase := .closed } ing').Connected c id := by
        rw [settle_connected hclose]
        rcases ha with ha | ⟨call, hc, ha⟩
        · exact .inl ha
        · exact .inr ⟨rfl, call, List.mem_append_left _ hc, ha⟩
      intro id ha
      rcases htalk.kept with hk | ⟨rfl, hnone⟩
      · exact hsingle c id _ (hlater ha) (hlater (.inr (htalk.announces.mpr hk)))
      · rcases hown with hsilent | ⟨a, i, b, hserving', hown⟩
        · rcases ha with ha | ha
          · exact absurd ha (hsilent id)
          · exact absurd (htalk.announces.mp ha) (hnone id)
        · obtain ⟨-, rfl, -⟩ : a = _ ∧ i = _ ∧ _ := by simpa using hserving'.symm.trans hserving
          exact hsingle c id _ (hlater ha) (hlater (.inl hown))

theorem complete_step {e : Event} (htab : Tables env s) (hcomplete : s.Complete)
    (hs : System.step env s e = some s') (horphans : ¬ s.Forgets env e) : s'.Complete := by
  obtain ⟨c, peer, nonce, ing', phase, rfl, hfresh, rfl, hquiet, -, -⟩ |
    ⟨c, input, conn, ing', phase, rfl, hconn, hr, rfl⟩ := step_cases hs
  · intro id c' ho ha
    have hcalls : ing'.calls = s.ing.calls := by simpa using hquiet.calls
    have ha' : s.Connected c' id := by simpa [settle_connected hquiet] using ha
    rw [settle_open, if_neg (accept_connected htab hfresh ha')] at ho
    rw [System.settle, hcalls]
    exact hcomplete id c' ho ha'
  · obtain ⟨-, hopen⟩ := resume_open hconn hr
    have hother {last : Str} (hends : conn.farewell env input = some last) :
        ∀ c' ≠ c, s.Open c' → ¬ s.Connected c' last :=
      fun c' hne ho ha ↦ horphans ⟨c, c', conn, input, last, rfl, hconn, hends, hne, ho, ha⟩
    cases resume_turn hr with
    | waits houtside hquiet _ hready => exact complete_talks hquiet (by simp) hopen hcomplete
    | leaves houtside hleave _ hbye hends =>
      have hnew : Produced env s.ing ([] ++ [_]) ing' := hleave
      exact complete_closes hnew hbye (by simp) rfl (hother hends) hcomplete
    | serves hserving hserve _ htalk =>
      exact complete_talks hserve (fun call hc id ↦ htalk.not_retires hc) hopen hcomplete
    | closes hserving hclose _ htalk hbye hends =>
      exact complete_closes hclose hbye (fun call hc id ↦ htalk.not_retires hc) rfl (hother hends)
        hcomplete

theorem exact_step {e : Event} (htab : Tables env s) (hex : s.Exact)
    (hs : System.step env s e = some s') (hsingle : s'.Single) (horphans : ¬ s.Forgets env e) :
    s'.Exact := by
  obtain ⟨hsound, hcomplete⟩ := exact_iff.mp hex
  exact exact_iff.mpr ⟨sound_step htab hsound hs hsingle, complete_step htab hcomplete hs horphans⟩

/-- A connection that ends under an id takes it offline, and leaves the other connections open. -/
theorem farewell_offline {input : Input} {id : Str} (htab : Tables env s)
    (hs : System.step env s (.wake c input) = some s') (hconn : s.conns c = some conn)
    (hends : conn.farewell env input = some id) {c' : ℕ} (hne : c' ≠ c) (ho : s.Open c') :
    s'.Open c' ∧ (s'.ing.online.get id).isSome = false := by
  have htab' := tables_step htab hs
  obtain ⟨_, _, _, _, _, he, -⟩ | ⟨_, _, conn', ing', phase, he, hconn', hr, rfl⟩ := step_cases hs
  · cases he
  obtain ⟨rfl, rfl⟩ : c = _ ∧ input = _ := by simpa using he
  obtain rfl : conn = conn' := Option.some.inj (hconn.symm.trans hconn')
  have hgone {new : List Call} {bye : Call} (hnew : Produced env s.ing (new ++ [bye]) ing')
      (hbye : bye.timeless = disconnectCall id) :
      (s.settle c { conn with phase := phase } ing').Open c' ∧
        (ing'.online.get id).isSome = false := by
    refine ⟨?_, ?_⟩
    · rwa [settle_open, if_neg hne]
    · rw [← Bool.not_eq_true]
      refine fun hon ↦ absurd ((htab'.consistent id).mp hon) ?_
      rw [System.settle, hnew.calls, ← List.append_assoc, present_concat, ← announces_timeless,
        ← retires_timeless, hbye, disconnect_retires]
      simp [disconnect_not_announces]
  cases resume_turn hr with
  | waits _ _ _ _ hstays | serves _ _ _ _ hstays =>
    rw [hstays] at hends
    cases hends
  | leaves _ hleave _ hbye hends' =>
    have hnew : Produced env s.ing ([] ++ [_]) ing' := hleave
    exact hgone hnew (Option.some.inj (hends'.symm.trans hends) ▸ hbye)
  | closes _ hclose _ _ hbye hends' =>
    exact hgone hclose (Option.some.inj (hends'.symm.trans hends) ▸ hbye)

def arrives (c : ℕ) : List Event :=
  [.accept c ⟨decimal c, decimal c⟩ (Link.lone []).nonce,
    .wake c (.recv (encodeFrame (ascii "HELLO:A")) Registry.none)]

end Exact

end OpusFleet.Server
