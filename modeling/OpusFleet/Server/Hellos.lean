import OpusFleet.Server.Attribution
import OpusFleet.Server.Bracketing

namespace OpusFleet.Server

open Python Library Protocol Auth Library.Runs Library.Incremental

/-- The bytes that connection `c` has read hold a HELLO frame for `id`. -/
def Announced (limit : ℕ) (es : List Event) (c : ℕ) (id : Str) : Prop :=
  ∃ payload ∈ (iterFrames (received c es)).1, classify limit payload = .ok (.hello id)

def SingleId (limit : ℕ) (es : List Event) : Prop :=
  ∀ c x y, Announced limit es c x → Announced limit es c y → x = y

namespace System

/-- The event ends a connection under an id that another open connection has announced. -/
def Orphans (env : Env) (es : List Event) (s : System) (e : Event) : Prop :=
  ∃ c c' conn input id, e = .wake c input ∧ s.conns c = some conn ∧
    conn.farewell env input = some id ∧
    c' ≠ c ∧ s.Open c' ∧ Announced env.limit es c' id

/-- A HELLO is among the frames that the handshake reads: the loop has it only
with the bytes that come next. -/
def Strands (env : Env) (s : System) (e : Event) : Prop :=
  ∃ c conn chunk registry buf payload id, e = .wake c (.recv chunk registry) ∧
    s.conns c = some conn ∧
    conn.phase = .reading buf ∧ payload ∈ (iterFrames (buf ++ chunk)).1 ∧
    classify env.limit payload = .ok (.hello id)

/-- The handshake reads two frames or more and the start of another, which it puts before them. -/
def Shuffles (s : System) (e : Event) : Prop :=
  ∃ c conn chunk registry buf, e = .wake c (.recv chunk registry) ∧ s.conns c = some conn ∧
    conn.phase = .reading buf ∧ 2 ≤ (iterFrames (buf ++ chunk)).1.length ∧
    (iterFrames (buf ++ chunk)).2 ≠ []

/-- A HELLO names another id than the one that the socket has proved. -/
def Ignores (env : Env) (s : System) (e : Event) : Prop :=
  ∃ c conn chunk registry imei buf payload id, e = .wake c (.recv chunk registry) ∧
    s.conns c = some conn ∧ conn.phase = .serving true imei buf ∧
    payload ∈ (iterFrames (buf ++ chunk)).1 ∧ classify env.limit payload = .ok (.hello id) ∧
    id ≠ imei

/-- The event brings a HELLO that the loop does not act on as it comes, or may garble one. -/
def Misses (env : Env) (s : System) (e : Event) : Prop :=
  s.Strands env e ∨ s.Shuffles e ∨ s.Ignores env e

end System

section Taken

variable {limit : ℕ} {authed : Bool} {imei id : Str} {frames : List Bytes}

theorem taken_hello (h : id ∈ taken limit authed imei frames) :
    ∃ f ∈ frames, classify limit f = .ok (.hello id) := by
  induction frames generalizing imei with
  | nil => simp [taken] at h
  | cons f frames ih =>
    have hlater {imei : Str} (h : id ∈ taken limit authed imei frames) :
        ∃ g ∈ f :: frames, classify limit g = .ok (.hello id) := by
      obtain ⟨g, hg, hc⟩ := ih h
      exact ⟨g, List.mem_cons_of_mem _ hg, hc⟩
    rw [taken] at h
    split at h
    · simp at h
    split at h
    · next x hx =>
      split at h
      · exact hlater h
      · rcases List.mem_cons.mp h with rfl | h
        · exact ⟨f, List.mem_cons_self, hx⟩
        · exact hlater h
    · exact hlater h

theorem taken_own (h : id ∈ taken limit true imei frames) : id = imei := by
  induction frames with
  | nil => simp [taken] at h
  | cons f frames ih =>
    rw [taken] at h
    split at h
    · simp at h
    split at h
    · next x hx =>
      split at h
      · exact ih h
      · next hkept =>
        obtain rfl : x = imei := by simpa using hkept
        rcases List.mem_cons.mp h with h | h
        · exact h
        · exact ih h
    · exact ih h

theorem hello_taken (hraises : ∀ f ∈ frames, raises limit f = false)
    (hown : authed = true → ∀ f ∈ frames, ∀ x, classify limit f = .ok (.hello x) → x = imei)
    {f : Bytes} (hf : f ∈ frames) (hc : classify limit f = .ok (.hello id)) :
    id ∈ taken limit authed imei frames := by
  induction frames generalizing imei with
  | nil => simp at hf
  | cons g frames ih =>
    have hrest : ∀ f ∈ frames, raises limit f = false :=
      fun f hf ↦ hraises f (List.mem_cons_of_mem _ hf)
    rw [taken, if_neg (by simp [hraises g List.mem_cons_self])]
    rcases List.mem_cons.mp hf with rfl | hf
    · have htake : ¬(authed = true ∧ id ≠ imei) := fun h ↦ h.2 (hown h.1 _ List.mem_cons_self id hc)
      rw [hc]
      simp only [if_neg htake, List.mem_cons, true_or]
    · split
      · next x hx =>
        have hsame (h : authed = true) : x = imei := hown h g List.mem_cons_self x hx
        rw [if_neg fun h ↦ h.2 (hsame h.1)]
        refine List.mem_cons_of_mem _ (ih hrest (fun h f hf y hy ↦ ?_) hf)
        rw [hsame h]
        exact hown h f (List.mem_cons_of_mem _ hf) y hy
      · exact ih hrest (fun h f hf ↦ hown h f (List.mem_cons_of_mem _ hf)) hf

end Taken

section Leftovers

variable {buf payload leftover rest : Bytes} {frames : List Bytes}

/-- A buffer that ends as the bytes read do and brings no HELLO frame. -/
structure InStep (limit : ℕ) (stream buf : Bytes) : Prop where
  tail : (iterFrames buf).2 = (iterFrames stream).2
  silent : ∀ f ∈ (iterFrames buf).1, ∀ id, classify limit f ≠ .ok (.hello id)

theorem iterFrames_rest (stream : Bytes) :
    iterFrames (iterFrames stream).2 = ([], (iterFrames stream).2) :=
  iterFrames_resumable.parse_rest stream

theorem iterFrames_putBack (stream : Bytes) {frames : List Bytes}
    (hfits : ∀ f ∈ frames, f.length ≤ maxFrame) :
    iterFrames (frames.flatMap encodeFrame ++ (iterFrames stream).2) =
      (frames, (iterFrames stream).2) := by
  rw [iterFrames_resumable.resume, iterFrames_flatMap hfits, List.nil_append, iterFrames_rest,
    List.append_nil]

theorem leftover_inStep {limit : ℕ} {stream : Bytes}
    (hread : iterFrames stream = (payload :: frames, rest))
    (hordered : frames = [] ∨ rest = [])
    (hsilent : ∀ f ∈ payload :: frames, ∀ id, classify limit f ≠ .ok (.hello id)) :
    InStep limit stream (rest ++ frames.flatMap encodeFrame) ∧
      InStep limit stream (encodeFrame payload ++ (rest ++ frames.flatMap encodeFrame)) := by
  have hfits : ∀ f ∈ payload :: frames, f.length ≤ maxFrame := fun f hf ↦
    iterFrames_fits stream (by rwa [hread])
  have hswap : rest ++ frames.flatMap encodeFrame =
      frames.flatMap encodeFrame ++ (iterFrames stream).2 := by
    rw [hread]
    rcases hordered with rfl | rfl <;> simp
  have hback := iterFrames_putBack stream fun f hf ↦ hfits f (List.mem_cons_of_mem _ hf)
  have hfirst := iterFrames_putBack stream hfits
  rw [List.flatMap_cons, List.append_assoc] at hfirst
  rw [hswap]
  refine ⟨⟨by rw [hback], ?_⟩, ⟨by rw [hfirst], ?_⟩⟩
  · rw [hback]
    exact fun f hf ↦ hsilent f (List.mem_cons_of_mem _ hf)
  · rw [hfirst]
    exact hsilent

theorem InStep.resume {limit : ℕ} {stream : Bytes} (h : InStep limit stream buf) (chunk : Bytes) :
    ∃ new rest, iterFrames (stream ++ chunk) = ((iterFrames stream).1 ++ new, rest) ∧
      iterFrames (buf ++ chunk) = ((iterFrames buf).1 ++ new, rest) := by
  refine ⟨(iterFrames ((iterFrames buf).2 ++ chunk)).1,
    (iterFrames ((iterFrames buf).2 ++ chunk)).2, ?_, ?_⟩
  · rw [iterFrames_resumable.resume, h.tail]
  · rw [iterFrames_resumable.resume]

theorem InStep.fresh {limit : ℕ} {stream chunk f : Bytes} {id : Str} (h : InStep limit stream buf)
    (hf : f ∈ (iterFrames (buf ++ chunk)).1) (hc : classify limit f = .ok (.hello id)) :
    f ∈ (iterFrames (stream ++ chunk)).1 := by
  obtain ⟨new, rest, hstream, hbuffer⟩ := h.resume chunk
  rw [hbuffer] at hf
  rw [hstream]
  exact List.mem_append_right _ ((List.mem_append.mp hf).resolve_left fun hf ↦ h.silent f hf id hc)

theorem checkFrame_leftover {env : Env} {registry : Registry} {nonce : Nonce} {peer : Peer}
    {accepted : Ingest.Accepted}
    (h : Ingest.checkFrame env registry nonce peer payload leftover = .ok accepted) :
    accepted.leftover = leftover ∨ accepted.leftover = encodeFrame payload ++ leftover := by
  unfold Ingest.checkFrame at h
  split at h
  · cases h
  · split at h
    · cases h
    · split at h
      · rw [← Except.ok.inj h]
        exact .inl rfl
      · cases h
  · split at h
    · cases h
    · obtain ⟨first, hfirst, rfl⟩ : ∃ first, frame payload = .ok first ∧ _ := by
        cases hf : frame payload with
        | error e => simp [hf, Except.map] at h
        | ok first =>
          simp only [hf, Except.map, Except.ok.injEq] at h
          exact ⟨first, rfl, h⟩
      rw [frame] at hfirst
      split at hfirst
      · cases hfirst
      · rw [← Except.ok.inj hfirst]
        exact .inr rfl

end Leftovers

section Heeded

variable {env : Env} {es : List Event} {s s' : System} {c : ℕ} {conn : Connection} {ing' : Ingest}
  {input : Input} {phase : Phase}

def Attends (env : Env) (es : List Event) (s : System) (c : ℕ) : Phase → Prop
  | .challenging => received c es = []
  | .reading buf => received c es = buf ∧ (iterFrames buf).1 = []
  | .greeting accepted => (∀ id, ¬ Announced env.limit es c id) ∧
      InStep env.limit (received c es) accepted.leftover
  | .denying => ∀ id, ¬ Announced env.limit es c id
  | .serving _ _ buf => (∀ id, Announced env.limit es c id → s.Connected c id) ∧
      InStep env.limit (received c es) buf
  | .closed => True

/-- Connect events come of HELLO frames, and those of open connections have all been acted on. -/
structure Heeded (env : Env) (es : List Event) (s : System) : Prop where
  unborn : ∀ c, s.conns c = none → received c es = []
  heard : ∀ c id, s.Connected c id → Announced env.limit es c id
  attends : ∀ c conn, s.conns c = some conn → Attends env es s c conn.phase

theorem not_announced (h : (iterFrames (received c es)).1 = []) (id : Str) :
    ¬ Announced env.limit es c id := by
  rintro ⟨payload, hp, -⟩
  rw [h] at hp
  cases hp

theorem Heeded.connected_iff (h : Heeded env es s) (hopen : s.Open c) (id : Str) :
    Announced env.limit es c id ↔ s.Connected c id := by
  refine ⟨fun ha ↦ ?_, h.heard c id⟩
  obtain ⟨conn, hconn, hphase⟩ := hopen
  have hattends := h.attends c conn hconn
  cases hc : conn.phase with
  | challenging =>
    rw [hc] at hattends
    exact absurd ha (not_announced (by rw [show received c es = [] from hattends]; rfl) id)
  | reading buf =>
    rw [hc] at hattends
    exact absurd ha (not_announced (by rw [hattends.1, hattends.2]) id)
  | greeting accepted =>
    rw [hc] at hattends
    exact absurd ha (hattends.1 id)
  | denying =>
    rw [hc] at hattends
    exact absurd ha (hattends id)
  | serving authed imei buf =>
    rw [hc] at hattends
    exact hattends.1 id ha
  | closed => exact absurd hc hphase

theorem heeded_init (maxConcurrent maxPerMinute : ℤ) :
    Heeded env [] (.init maxConcurrent maxPerMinute) where
  unborn _ _ := rfl
  heard c id h := by simp [System.Connected, System.init] at h
  attends c conn h := by simp [System.init] at h

theorem Attends.later {e : Event} (h : Attends env es s c phase)
    (hbytes : received c (es ++ [e]) = received c es)
    (hconnected : ∀ id, s.Connected c id → s'.Connected c id) :
    Attends env (es ++ [e]) s' c phase := by
  have hsame (id : Str) : Announced env.limit (es ++ [e]) c id ↔ Announced env.limit es c id := by
    rw [Announced, Announced, hbytes]
  cases phase with
  | challenging => exact hbytes.trans h
  | reading buf => exact ⟨hbytes.trans h.1, h.2⟩
  | greeting accepted => exact ⟨fun id ↦ (hsame id).not.mpr (h.1 id), hbytes ▸ h.2⟩
  | denying => exact fun id ↦ (hsame id).not.mpr (h id)
  | serving authed imei buf =>
    exact ⟨fun id ha ↦ hconnected id (h.1 id ((hsame id).mp ha)), hbytes ▸ h.2⟩
  | closed => trivial

theorem refuse_attends (hnone : ∀ id, ¬ Announced env.limit es c id) (ing : Ingest) (peer : Peer)
    (e : Exc) : Attends env es s c (ing.refuse env peer e).2 := by
  rw [Ingest.refuse]
  split
  · exact hnone
  · trivial

theorem answer_attends {registry : Registry} {payload rest : Bytes} {frames : List Bytes}
    (hread : iterFrames (received c es) = (payload :: frames, rest))
    (hordered : frames = [] ∨ rest = [])
    (hsilent : ∀ f ∈ payload :: frames, ∀ id, classify env.limit f ≠ .ok (.hello id))
    (ing : Ingest) :
    Attends env es s c
      (ing.answer env registry conn payload (rest ++ frames.flatMap encodeFrame)).2 := by
  have hnone (id : Str) : ¬ Announced env.limit es c id := by
    rintro ⟨f, hf, hc⟩
    rw [hread] at hf
    exact hsilent f hf id hc
  obtain ⟨hin, hin'⟩ := leftover_inStep hread hordered hsilent
  rw [Ingest.answer]
  split
  · exact refuse_attends hnone ing conn.peer _
  · next accepted hcheck =>
    have hleft : InStep env.limit (received c es) accepted.leftover := by
      rcases checkFrame_leftover hcheck with h | h <;> rw [h]
      · exact hin
      · exact hin'
    split
    · split
      · exact refuse_attends hnone ing conn.peer _
      · exact ⟨hnone, hleft⟩
    · exact ⟨fun id ha ↦ absurd ha (hnone id), hleft⟩

theorem settle_heeded (h : Heeded env es s) {e : Event} {new : List Call}
    (hnew : Produced env s.ing new ing') (hconn : s.conns c = some conn ∨ s.conns c = none)
    (hother : ∀ c' ≠ c, received c' (es ++ [e]) = received c' es)
    (hbytes : ∀ id, Announced env.limit es c id → Announced env.limit (es ++ [e]) c id)
    (hheard : ∀ id, (∃ call ∈ new, call.Announces id) → Announced env.limit (es ++ [e]) c id)
    {conn' : Connection}
    (hattends : Attends env (es ++ [e]) (s.settle c conn' ing') c conn'.phase) :
    Heeded env (es ++ [e]) (s.settle c conn' ing') := by
  refine ⟨?_, ?_, ?_⟩
  · intro c' hc'
    obtain ⟨hne, hc'⟩ := settle_none hc'
    exact (hother c' hne).trans (h.unborn c' hc')
  · intro c' id hconnected
    rcases (settle_connected hnew c' id).mp hconnected with hconnected | ⟨rfl, ha⟩
    · have ha := h.heard c' id hconnected
      by_cases hne : c' = c
      · subst hne
        exact hbytes id ha
      · rwa [Announced, hother c' hne]
    · exact hheard id ha
  · intro c' conn'' hc'
    rcases settle_some hc' with ⟨rfl, rfl⟩ | ⟨hne, hc'⟩
    · exact hattends
    · refine (h.attends c' conn'' hc').later (hother c' hne) fun id hconnected ↦ ?_
      exact (settle_connected hnew c' id).mpr (.inl hconnected)

theorem heeded_accept (h : Heeded env es s) {peer : Peer} {nonce : Nonce}
    (hfresh : s.conns c = none)
    (hquiet : Produced env s.ing [] ing') (hphase : phase = env.mode.opening ∨ phase = .closed) :
    Heeded env (es ++ [.accept c peer nonce]) (s.settle c ⟨peer, nonce, phase⟩ ing') := by
  have hsame (c' : ℕ) : received c' (es ++ [.accept c peer nonce]) = received c' es :=
    received_other (by simp)
  have hnew : s.conns c = some ⟨peer, nonce, phase⟩ ∨ s.conns c = none := .inr hfresh
  refine settle_heeded h hquiet hnew (fun c' _ ↦ hsame c') ?_ (by simp) ?_
  · intro id ha
    rwa [Announced, hsame]
  · have hempty : received c (es ++ [.accept c peer nonce]) = [] :=
      (hsame c).trans (h.unborn c hfresh)
    rcases hphase with rfl | rfl
    · cases hm : env.mode with
      | disabled =>
        refine ⟨fun id ha ↦ absurd ha (not_announced (by rw [hempty]; rfl) id), by rw [hempty], ?_⟩
        simp
      | optional => exact hempty
      | required => exact hempty
    · trivial

theorem serve_taken {ing : Ingest} {peer : Peer} {authed : Bool} {imei : Str} {buf : Bytes}
    {new : List Call} (hnew : Produced env ing new (ing.serve env peer authed imei buf).1)
    (hraises : ∀ f ∈ (iterFrames buf).1, raises env.limit f = false) {id : Str}
    (htaken : id ∈ taken env.limit authed imei (iterFrames buf).1) :
    ∃ call ∈ new, call.Announces id := by
  obtain ⟨talk, hp, ht, -⟩ := frameLoop_spec env peer authed (iterFrames buf).1 ing imei
  have hnone := frameLoop_raises env peer authed (iterFrames buf).1 ing imei
  rw [List.any_eq_false.mpr fun f hf ↦ by simp [hraises f hf]] at hnone
  rw [Ingest.serve] at hnew
  rcases hl : ing.frameLoop env peer authed imei (iterFrames buf).1 with ⟨ing₁, last, _ | e⟩
  · rw [hl] at hp hnew ht
    obtain rfl := hnew.unique hp
    rw [← transcript_announces env.limit peer, ← ht] at htaken
    obtain ⟨call, hcall, ha⟩ := htaken
    rcases List.mem_append.mp hcall with hcall | hcall
    · obtain ⟨call', hcall', rfl⟩ := List.mem_map.mp hcall
      exact ⟨call', hcall', (announces_timeless call').mp ha⟩
    · rw [List.mem_singleton.mp hcall] at ha
      exact absurd ha disconnect_not_announces
  · rw [hl] at hnone
    cases hnone

theorem heeded_serve (h : Heeded env es s) {chunk : Bytes} {registry : Registry}
    {authed : Bool} {imei : Str}
    {buf : Bytes} (hconn : s.conns c = some conn) (hphase : conn.phase = .serving authed imei buf)
    (hr : s.ing.resume env conn (.recv chunk registry) = some (ing', phase))
    (hown : authed = true → ∀ f ∈ (iterFrames (buf ++ chunk)).1, ∀ x,
      classify env.limit f = .ok (.hello x) → x = imei) :
    Heeded env (es ++ [.wake c (.recv chunk registry)])
      (s.settle c { conn with phase := phase } ing') := by
  obtain ⟨new, hnew⟩ := (resume_turn hr).produced
  have hattends := h.attends c conn hconn
  rw [hphase] at hattends
  obtain ⟨hheard, hin⟩ := hattends
  obtain ⟨fresh, rest, hstream, hbuffer⟩ := hin.resume chunk
  refine settle_heeded h hnew (.inl hconn) (fun c' hne ↦ ?_) ?_ ?_ ?_
  · simp [received, Ne.symm hne]
  · rintro id ⟨f, hf, hc⟩
    refine ⟨f, ?_, hc⟩
    rw [received_recv, hstream]
    exact List.mem_append_left _ hf
  · intro id ha
    obtain ⟨chunk', registry', authed', imei', buf', hinput, hphase', htaken⟩ :=
      resume_announces hr hnew ha
    obtain ⟨rfl, -⟩ : chunk = chunk' ∧ _ := by simpa using hinput
    obtain ⟨rfl, rfl, rfl⟩ : authed = authed' ∧ imei = imei' ∧ buf = buf' := by
      simpa using hphase.symm.trans hphase'
    obtain ⟨f, hf, hc⟩ := taken_hello htaken
    exact ⟨f, by rw [received_recv]; exact hin.fresh hf hc, hc⟩
  · simp only [Ingest.resume, hphase] at hr
    split at hr
    · cases hr
    have hserve : (s.ing.serve env conn.peer authed imei (buf ++ chunk)).1 = ing' :=
      congrArg Prod.fst (Option.some.inj hr)
    have hend : (s.ing.serve env conn.peer authed imei (buf ++ chunk)).2 = phase :=
      congrArg Prod.snd (Option.some.inj hr)
    have hraises := frameLoop_raises env conn.peer authed (iterFrames (buf ++ chunk)).1 s.ing imei
    rw [Ingest.serve] at hend
    rcases hl : s.ing.frameLoop env conn.peer authed imei (iterFrames (buf ++ chunk)).1
      with ⟨ing₁, last, _ | e⟩
    · rw [hl] at hend hraises
      subst hend
      refine ⟨?_, ?_, ?_⟩
      · rintro id ⟨f, hf, hc⟩
        rw [received_recv, hstream] at hf
        rw [settle_connected hnew]
        rcases List.mem_append.mp hf with hf | hf
        · exact .inl (hheard id ⟨f, hf, hc⟩)
        · have hmem : f ∈ (iterFrames (buf ++ chunk)).1 := by
            rw [hbuffer]
            exact List.mem_append_right _ hf
          have hsound : ∀ f ∈ (iterFrames (buf ++ chunk)).1, raises env.limit f = false := by
            simpa using hraises.symm
          exact .inr ⟨rfl,
            serve_taken (hserve.symm ▸ hnew) hsound (hello_taken hsound hown hmem hc)⟩
      · rw [iterFrames_rest, received_recv, hstream, hbuffer]
      · simp [iterFrames_rest]
    · rw [hl] at hend
      subst hend
      trivial

theorem reading_attends {buf chunk : Bytes} {registry : Registry}
    (hphase : conn.phase = .reading buf) (hbuf : received c es = buf)
    (hsilent : ∀ f ∈ (iterFrames (buf ++ chunk)).1, ∀ id, classify env.limit f ≠ .ok (.hello id))
    (hordered : (iterFrames (buf ++ chunk)).1.length < 2 ∨ (iterFrames (buf ++ chunk)).2 = [])
    (hr : s.ing.resume env conn (.recv chunk registry) = some (ing', phase)) :
    Attends env (es ++ [.wake c (.recv chunk registry)]) s' c phase := by
  have hstream : received c (es ++ [.wake c (.recv chunk registry)]) = buf ++ chunk := by
    rw [received_recv, hbuf]
  simp only [Ingest.resume, hphase] at hr
  split at hr
  · cases hr
  rcases hi : iterFrames (buf ++ chunk) with ⟨_ | ⟨payload, frames⟩, rest⟩
  · rw [Ingest.firstFrame_none hi] at hr
    obtain ⟨-, rfl⟩ : _ ∧ Phase.reading (buf ++ chunk) = phase := by simpa using hr
    exact ⟨hstream, by rw [hi]⟩
  · rw [hi] at hsilent hordered
    rw [Ingest.firstFrame_eq hi] at hr
    have horder : frames = [] ∨ rest = [] := hordered.imp (fun hlen ↦ by
      simpa [List.length_eq_zero_iff] using hlen) id
    have hanswer : Attends env (es ++ [.wake c (.recv chunk registry)]) s' c
        (s.ing.answer env registry conn payload (rest ++ frames.flatMap encodeFrame)).2 :=
      answer_attends (hstream ▸ hi) horder hsilent s.ing
    have hend := congrArg Prod.snd (Option.some.inj hr)
    dsimp only at hend
    rwa [hend] at hanswer

theorem other_attends (hst : Attends env es s c conn.phase)
    (hr : s.ing.resume env conn input = some (ing', phase))
    (hrecv : ∀ chunk registry, input ≠ .recv chunk registry) :
    Attends env es s c phase := by
  cases hphase : conn.phase with
  | challenging =>
    rw [hphase] at hst
    cases input with
    | drained ok =>
      simp only [Ingest.resume, hphase] at hr
      split at hr
      · obtain ⟨-, rfl⟩ : _ ∧ Phase.reading [] = phase := by simpa using hr
        exact ⟨hst, rfl⟩
      · obtain ⟨-, rfl⟩ : _ ∧ Phase.closed = phase := by simpa using hr
        trivial
    | recv chunk registry => exact absurd rfl (hrecv chunk registry)
    | ended ending => simp [Ingest.resume, hphase] at hr
  | reading buf =>
    rw [hphase] at hst
    cases input with
    | drained ok => simp [Ingest.resume, hphase] at hr
    | recv chunk registry => exact absurd rfl (hrecv chunk registry)
    | ended ending =>
      simp only [Ingest.resume, hphase, Option.some.injEq] at hr
      have hend := congrArg Prod.snd hr
      dsimp only at hend
      rw [← hend]
      exact refuse_attends (not_announced (by rw [hst.1, hst.2])) s.ing conn.peer _
  | greeting accepted =>
    rw [hphase] at hst
    cases input with
    | drained ok =>
      simp only [Ingest.resume, hphase] at hr
      split at hr
      · obtain ⟨-, rfl⟩ : _ ∧ Phase.serving _ _ _ = phase := by simpa using hr
        exact ⟨fun id ha ↦ absurd ha (hst.1 id), hst.2⟩
      · obtain ⟨-, rfl⟩ : _ ∧ Phase.closed = phase := by simpa using hr
        trivial
    | recv chunk registry => exact absurd rfl (hrecv chunk registry)
    | ended ending => simp [Ingest.resume, hphase] at hr
  | denying =>
    cases input with
    | drained ok =>
      obtain ⟨-, rfl⟩ : _ ∧ Phase.closed = phase := by simpa [Ingest.resume, hphase] using hr
      trivial
    | recv chunk registry => exact absurd rfl (hrecv chunk registry)
    | ended ending => simp [Ingest.resume, hphase] at hr
  | serving authed imei buf =>
    cases input with
    | drained ok => simp [Ingest.resume, hphase] at hr
    | recv chunk registry => exact absurd rfl (hrecv chunk registry)
    | ended ending =>
      obtain ⟨-, rfl⟩ : _ ∧ Phase.closed = phase := by simpa [Ingest.resume, hphase] using hr
      trivial
  | closed => exact absurd hphase (resume_unclosed hr)

theorem heeded_step {e : Event} (h : Heeded env es s) (hs : System.step env s e = some s')
    (hmisses : ¬ s.Misses env e) : Heeded env (es ++ [e]) s' := by
  obtain ⟨c, peer, nonce, ing', phase, rfl, hfresh, rfl, hquiet, -, hphase⟩ |
    ⟨c, input, conn, ing', phase, rfl, hconn, hr, rfl⟩ := step_cases hs
  · exact heeded_accept h hfresh hquiet hphase
  obtain ⟨new, hnew⟩ := (resume_turn hr).produced
  have hattends := h.attends c conn hconn
  by_cases hrecv : ∃ chunk registry, input = .recv chunk registry
  swap
  · -- no bytes come in, so nothing is announced
    have hother : ∀ chunk registry, input ≠ .recv chunk registry := fun chunk registry he ↦
      hrecv ⟨chunk, registry, he⟩
    have hsame (c' : ℕ) : received c' (es ++ [.wake c input]) = received c' es := by
      refine received_other fun chunk registry he ↦ ?_
      cases he
      exact hrecv ⟨chunk, registry, rfl⟩
    have hmute : ∀ id, ¬ ∃ call ∈ new, call.Announces id := by
      intro id ha
      obtain ⟨chunk, registry, authed, imei, buf, hinput, -⟩ := resume_announces hr hnew ha
      exact hother chunk registry hinput
    refine settle_heeded h hnew (.inl hconn) (fun c' _ ↦ hsame c') ?_
      (fun id ha ↦ absurd ha (hmute id)) ?_
    · intro id ha
      rwa [Announced, hsame]
    · refine (other_attends hattends hr hother).later (hsame c) fun id hconnected ↦ ?_
      exact (settle_connected hnew c id).mpr (.inl hconnected)
  obtain ⟨chunk, registry, rfl⟩ := hrecv
  cases hphase : conn.phase with
  | reading buf =>
    rw [hphase] at hattends
    have hsilent : ∀ f ∈ (iterFrames (buf ++ chunk)).1,
        ∀ id, classify env.limit f ≠ .ok (.hello id) :=
      fun f hf id hc ↦ hmisses (.inl ⟨c, conn, chunk, registry, buf, f, id, rfl, hconn,
        hphase, hf, hc⟩)
    have hordered : (iterFrames (buf ++ chunk)).1.length < 2 ∨
        (iterFrames (buf ++ chunk)).2 = [] := by
      by_contra hnot
      obtain ⟨hlen, hrest⟩ := not_or.mp hnot
      exact hmisses (.inr (.inl ⟨c, conn, chunk, registry, buf, rfl, hconn, hphase,
        not_lt.mp hlen, hrest⟩))
    have hmute : ∀ id, ¬ ∃ call ∈ new, call.Announces id := by
      intro id ha
      obtain ⟨_, _, authed, imei, buf', -, hserving, -⟩ := resume_announces hr hnew ha
      rw [hphase] at hserving
      cases hserving
    refine settle_heeded h hnew (.inl hconn) (fun c' hne ↦ ?_) (fun id ha ↦ ?_)
      (fun id ha ↦ absurd ha (hmute id))
        (reading_attends hphase hattends.1 hsilent hordered hr)
    · simp [received, Ne.symm hne]
    · exact absurd ha (not_announced (by rw [hattends.1, hattends.2]) id)
  | serving authed imei buf =>
    refine heeded_serve h hconn hphase hr fun hauthed f hf x hc ↦ ?_
    by_contra hne
    subst hauthed
    exact hmisses (.inr (.inr ⟨c, conn, chunk, registry, imei, buf, f, x, rfl, hconn,
      hphase, hf, hc, hne⟩))
  | challenging | greeting accepted | denying | closed =>
    simp only [Ingest.resume, hphase] at hr
    split at hr <;> cases hr

end Heeded

section Exact

variable {env : Env} {es : List Event} {s s' : System} {c : ℕ} {id : Str} {e : Event}

theorem Announced.later {limit : ℕ} (h : Announced limit es c id) (e : Event) :
    Announced limit (es ++ [e]) c id := by
  obtain ⟨f, hf, hc⟩ := h
  refine ⟨f, ?_, hc⟩
  rw [received, List.flatMap_append, ← received, iterFrames_resumable.resume]
  exact List.mem_append_left _ hf

theorem Heeded.single (h : Heeded env es s) (hsingle : SingleId env.limit es) : s.Single :=
  fun c x y hx hy ↦ hsingle c x y (h.heard c x hx) (h.heard c y hy)

theorem Heeded.not_forgets (h : Heeded env es s) (horphans : ¬ s.Orphans env es e) :
    ¬ s.Forgets env e := by
  rintro ⟨c, c', conn, input, id, he, hconn, hends, hne, ho, hconnected⟩
  exact horphans ⟨c, c', conn, input, id, he, hconn, hends, hne, ho, h.heard c' id hconnected⟩

/-- A step that ends a connection under an id leaves it offline. -/
theorem orphans_offline (htab : Tables env s) (hs : System.step env s e = some s')
    (h : s.Orphans env es e) :
    ∃ c id, s'.Open c ∧ Announced env.limit (es ++ [e]) c id ∧
      (s'.ing.online.get id).isSome = false := by
  obtain ⟨c, c', conn, input, id, rfl, hconn, hends, hne, ho, ha⟩ := h
  obtain ⟨hopen, hoff⟩ := farewell_offline htab hs hconn hends hne ho
  exact ⟨c', id, hopen, ha.later _, hoff⟩

theorem present_append {calls new : List Call} (h : Present (calls ++ new) id) :
    Present calls id ∨ ∃ call ∈ new, call.Announces id := by
  induction new using List.reverseRecOn with
  | nil => exact .inl (by simpa using h)
  | append_singleton new call ih =>
    rw [← List.append_assoc, present_concat] at h
    rcases h with ha | ⟨hp, -⟩
    · exact .inr ⟨call, by simp, ha⟩
    · rcases ih hp with hp | ⟨call', hcall, ha⟩
      · exact .inl hp
      · exact .inr ⟨call', List.mem_append_left _ hcall, ha⟩

/-- A HELLO that the loop does not act on puts its id online for no connection. -/
theorem missed_offline (htab : Tables env s) (hheeded : Heeded env es s) (hex : s.Exact)
    (hsingle : SingleId env.limit es)
    (hs : System.step env s e = some s') (h : s.Strands env e ∨ s.Ignores env e) :
    ∃ c id, Announced env.limit (es ++ [e]) c id ∧ ((s'.ing.online.get id).isSome = true →
      ∃ c' ≠ c, s.Open c' ∧ Announced env.limit es c' id) := by
  have htab' := tables_step htab hs
  have hlast {c : ℕ} {id : Str} {conn : Connection} {ing' : Ingest} {phase : Phase} {input : Input}
      (hr : s.ing.resume env conn input = some (ing', phase)) (hnot : ¬ s.Connected c id)
      (hmute : ∀ new, Produced env s.ing new ing' → ¬ ∃ call ∈ new, call.Announces id)
      (hconsistent : (ing'.online.get id).isSome = true ↔ Present ing'.calls id)
      (hon : (ing'.online.get id).isSome = true) :
      ∃ c' ≠ c, s.Open c' ∧ Announced env.limit es c' id := by
    obtain ⟨new, hnew⟩ := (resume_turn hr).produced
    have hp := hconsistent.mp hon
    rw [hnew.calls] at hp
    obtain ⟨c', ho, hconnected⟩ := (hex id).mp ((present_append hp).resolve_right (hmute new hnew))
    refine ⟨c', ?_, ho, hheeded.heard c' id hconnected⟩
    rintro rfl
    exact hnot hconnected
  rcases h with ⟨c, conn, chunk, registry, buf, f, id, rfl, hconn, hphase, hf, hc⟩ |
    ⟨c, conn, chunk, registry, imei, buf, f, id, rfl, hconn, hphase, hf, hc, hne⟩
  all_goals
    obtain ⟨_, _, _, _, _, he, -⟩ | ⟨_, _, conn', ing', phase, he, hconn', hr, rfl⟩ := step_cases hs
    · cases he
    obtain ⟨rfl, rfl⟩ : c = _ ∧ Input.recv chunk registry = _ := by simpa using he
    obtain rfl : conn = conn' := Option.some.inj (hconn.symm.trans hconn')
    have hattends := hheeded.attends c conn hconn
    rw [hphase] at hattends
  · refine ⟨c, id, ⟨f, by rwa [received_recv, hattends.1], hc⟩,
      hlast hr ?_ ?_ (htab'.consistent id)⟩
    · exact fun h ↦ not_announced (by rw [hattends.1, hattends.2]) id (hheeded.heard c id h)
    · rintro new hnew ha
      obtain ⟨_, _, authed, imei, buf', -, hserving, -⟩ := resume_announces hr hnew ha
      rw [hphase] at hserving
      cases hserving
  · refine ⟨c, id, ⟨f, by rw [received_recv]; exact hattends.2.fresh hf hc, hc⟩,
      hlast hr ?_ ?_ (htab'.consistent id)⟩
    · -- the socket has made connect events of the id that it has proved alone
      intro h
      rcases htab.own c conn hconn (resume_unclosed hr) with hnone | ⟨a, i, b, hserving, hown⟩
      · exact hnone id h
      · obtain ⟨-, rfl, -⟩ : _ ∧ imei = i ∧ _ := by simpa using hphase.symm.trans hserving
        exact hne (hsingle c id imei (hheeded.heard c id h) (hheeded.heard c imei hown))
    · rintro new hnew ha
      obtain ⟨_, _, authed, imei', buf', -, hserving, htaken⟩ := resume_announces hr hnew ha
      obtain ⟨rfl, rfl, -⟩ : true = authed ∧ imei = imei' ∧ _ := by
        simpa using hphase.symm.trans hserving
      exact hne (taken_own htaken)

/-- Presence in every run in which each HELLO comes where the main loop takes it and no connection
ends under an id that another open one has announced: an id is online if and only if an open
connection has announced it, and the API shows the same once it has processed the events. A step
that ends a connection so breaks it at once, and one that misses a HELLO does unless another open
connection has announced the same id. -/
theorem presence_exact (maxConcurrent maxPerMinute : ℤ)
    (hrun : run (System.step env) (.init maxConcurrent maxPerMinute) es = some s)
    (hsingle : SingleId env.limit es)
    (hkeeps : Along (System.step env) (fun es s e ↦ ¬ s.Misses env e ∧ ¬ s.Orphans env es e)
      (.init maxConcurrent maxPerMinute) es) :
    (∀ id, (s.ing.online.get id).isSome = true ↔ ∃ c, s.Open c ∧ Announced env.limit es c id) ∧
    (∀ depth limit clock, (∀ n < s.ing.calls.length, env.broker n = .enqueued) →
      ∃ state, Api.consumeState depth limit clock .empty s.ing.queue = some state ∧
        ∀ id, Api.Shows state id ↔ (s.ing.online.get id).isSome = true) ∧
    (∀ e s', System.step env s e = some s' → s.Orphans env es e →
      ∃ c id, s'.Open c ∧ Announced env.limit (es ++ [e]) c id ∧
        (s'.ing.online.get id).isSome = false) ∧
    ∀ e s', System.step env s e = some s' → s.Strands env e ∨ s.Ignores env e →
      ∃ c id, Announced env.limit (es ++ [e]) c id ∧ ((s'.ing.online.get id).isSome = true →
        ∃ c' ≠ c, s.Open c' ∧ Announced env.limit es c' id) := by
  obtain ⟨htab, hheeded, hex⟩ : Tables env s ∧ Heeded env es s ∧
      (SingleId env.limit es → s.Exact) := by
    refine run_along (I := fun es s ↦ Tables env s ∧ Heeded env es s ∧
      (SingleId env.limit es → s.Exact))
      ?_ ?_ hkeeps hrun
    · refine ⟨tables_init maxConcurrent maxPerMinute,
        heeded_init maxConcurrent maxPerMinute, fun _ id ↦ ?_⟩
      simp [System.init, Ingest.init, Present, System.Connected]
    · intro es m e m' hinv hkeep hs
      obtain ⟨htab, hheeded, hex⟩ := hinv
      obtain ⟨hmisses, horphans⟩ := hkeep
      have hheeded' := heeded_step hheeded hs hmisses
      refine ⟨tables_step htab hs, hheeded', fun hsingle ↦ ?_⟩
      have hbefore : SingleId env.limit es :=
        fun c x y hx hy ↦ hsingle c x y (hx.later e) (hy.later e)
      exact exact_step htab (hex hbefore) hs (hheeded'.single hsingle)
        (hheeded.not_forgets horphans)
  refine ⟨fun id ↦ ?_, ?_, fun e s' ↦ orphans_offline htab,
    fun e s' ↦ missed_offline htab hheeded (hex hsingle) hsingle⟩
  · rw [htab.consistent, hex hsingle]
    exact exists_congr fun c ↦ and_congr_right fun ho ↦ (hheeded.connected_iff ho id).symm
  · intro depth limit clock htaken
    have hqueue : s.ing.queue = s.ing.calls.map Call.message := by
      rw [htab.queue, delivered_enqueued _ _ _ (by simpa using htaken)]
    obtain ⟨state, hstate, hshows⟩ := Api.consumeState_shows depth limit clock htab.wellmade
    refine ⟨state, hqueue ▸ hstate, fun id ↦ ?_⟩
    rw [hshows, htab.consistent]

theorem announced_sole {limit c : ℕ} {x id : Str} {payload : Bytes}
    (hbytes : received c es = encodeFrame payload) (hlen : payload.length ≤ maxFrame)
    (hhello : classify limit payload = .ok (.hello id)) (h : Announced limit es c x) : x = id := by
  obtain ⟨f, hf, hc⟩ := h
  have hframes := iterFrames_frame hlen []
  rw [List.append_nil] at hframes
  rw [hbytes, hframes] at hf
  obtain rfl := List.mem_singleton.mp hf
  rw [hhello] at hc
  exact (Kind.hello.inj (Except.ok.inj hc)).symm

theorem accept_keeps {peer : Peer} {nonce : Nonce} (he : e = .accept c peer nonce) :
    ¬ s.Misses env e ∧ ¬ s.Orphans env es e := by
  subst he
  constructor
  · rintro (⟨_, _, _, _, _, _, _, he, -⟩ | ⟨_, _, _, _, _, he, -⟩ | ⟨_, _, _, _, _, _, _, _, he,
      -⟩) <;> cases he
  · rintro ⟨_, _, _, _, _, he, -⟩
    cases he

theorem resume_plain {ing' : Ingest} {phase : Phase} {input : Input} {imei : Str} {buf : Bytes}
    (hphase : conn.phase = .serving false imei buf)
    (hr : s.ing.resume env conn input = some (ing', phase)) :
    phase = .closed ∨ ∃ imei buf, phase = .serving false imei buf := by
  cases input with
  | drained ok => simp [Ingest.resume, hphase] at hr
  | recv chunk registry =>
    simp only [Ingest.resume, hphase] at hr
    split at hr
    · cases hr
    · obtain rfl := congrArg Prod.snd (Option.some.inj hr)
      rw [Ingest.serve]
      rcases s.ing.frameLoop env conn.peer false imei (iterFrames (buf ++ chunk)).1
        with ⟨ing₁, last, _ | e⟩
      · exact .inr ⟨_, _, rfl⟩
      · exact .inl rfl
  | ended ending =>
    simp only [Ingest.resume, hphase, Option.some.injEq, Prod.mk.injEq] at hr
    exact .inl hr.2.symm

/-- Every connection is in its main loop and has proved no id, or it is closed. -/
def System.Plain (s : System) : Prop :=
  ∀ c conn, s.conns c = some conn →
    conn.phase = .closed ∨ ∃ imei buf, conn.phase = .serving false imei buf

theorem run_plain (hmode : env.mode = .disabled) {maxConcurrent maxPerMinute : ℤ}
    (hrun : run (System.step env) (.init maxConcurrent maxPerMinute) es = some s) : s.Plain := by
  refine run_induction (I := fun _ s ↦ s.Plain) nofun ?_ (throughout_true es) hrun
  intro es m e m' _ hplain _ hs c' conn' hconn'
  obtain ⟨c, peer, nonce, ing', phase, -, -, rfl, -, -, hphase⟩ |
    ⟨c, input, conn, ing', phase, -, hconn, hr, rfl⟩ := step_cases hs
  · rcases settle_some hconn' with ⟨rfl, rfl⟩ | ⟨-, hconn'⟩
    · rcases hphase with rfl | rfl
      · exact .inr ⟨_, _, by rw [hmode, Mode.opening]⟩
      · exact .inl rfl
    · exact hplain c' conn' hconn'
  · rcases settle_some hconn' with ⟨rfl, rfl⟩ | ⟨-, hconn'⟩
    · obtain hclosed | ⟨imei, buf, hserving⟩ := hplain c' conn hconn
      · exact absurd hclosed (resume_unclosed hr)
      · exact resume_plain hserving hr
    · exact hplain c' conn' hconn'

/-- With authentication disabled the main loop takes each HELLO as it comes. -/
theorem System.Plain.takes (h : s.Plain) (e : Event) : ¬ s.Misses env e := by
  rintro (⟨_, _, _, _, _, _, _, -, hconn, hp, -⟩ | ⟨_, _, _, _, _, -, hconn, hp, -⟩ |
    ⟨_, _, _, _, _, _, _, _, -, hconn, hp, -⟩)
  all_goals
    rcases h _ _ hconn with hclosed | ⟨imei, buf, hserving⟩
    · simp [hclosed] at hp
    · simp [hserving] at hp

theorem System.Orphans.farewell {c : ℕ} {input : Input} (h : s.Orphans env es (.wake c input)) :
    ∃ id c', (s.conns c).bind (fun conn ↦ conn.farewell env input) = some id ∧ c' ≠ c ∧
      Announced env.limit es c' id := by
  obtain ⟨_, c', conn, _, id, he, hconn, hends, hne, -, hann⟩ := h
  obtain ⟨rfl, rfl⟩ := Event.wake.inj he
  exact ⟨id, c', by rw [hconn, Option.bind_some, hends], hne, hann⟩

/-- B comes and goes while A stays. -/
def visited : List Event :=
  arrives 0 ++ [.accept 1 (Link.lone []).peer (Link.lone []).nonce,
    .wake 1 (.recv (encodeFrame (ascii "HELLO:B")) Registry.none), .wake 1 (.ended .eof)]

theorem visited_announced {c : ℕ} {x : Str} (h : Announced env.limit visited c x) :
    c = 0 ∧ x = lit "A" ∨ c = 1 ∧ x = lit "B" := by
  by_cases hc : c = 0
  · subst hc
    have hbytes : received 0 visited = encodeFrame (ascii "HELLO:A") := by decide
    exact .inl ⟨rfl, announced_sole hbytes (by decide) rfl h⟩
  by_cases hc' : c = 1
  · subst hc'
    have hbytes : received 1 visited = encodeFrame (ascii "HELLO:B") := by decide
    exact .inr ⟨rfl, announced_sole hbytes (by decide) rfl h⟩
  · have hbytes : received c visited = [] := by
      simp [received, visited, arrives, Ne.symm hc, Ne.symm hc']
    exact absurd h (not_announced (by rw [hbytes]; rfl) x)

theorem visited_keeps :
    Along (System.step (Env.calm .disabled))
      (fun es s e ↦ ¬ s.Misses (Env.calm .disabled) e ∧ ¬ s.Orphans (Env.calm .disabled) es e)
      (.init 64 120) visited := by
  have hstays {es : List Event} {m : System} {c : ℕ} {input : Input}
      (hm : run (System.step (Env.calm .disabled)) (.init 64 120) es = some m)
      (h : (run (System.step (Env.calm .disabled)) (.init 64 120) es).map (fun m ↦
        (m.conns c).bind fun conn ↦ conn.farewell (Env.calm .disabled) input) = some none) :
      ¬ m.Misses (Env.calm .disabled) (.wake c input) ∧
        ¬ m.Orphans (Env.calm .disabled) es (.wake c input) := by
    refine ⟨(run_plain rfl hm).takes _, fun horphans ↦ ?_⟩
    obtain ⟨id, c', hends, -⟩ := horphans.farewell
    rw [hm, Option.map_some, hends] at h
    cases h
  have hgoes (n : ℕ) (h : (run (System.step (Env.calm .disabled)) (.init 64 120)
      (visited.take n)).isSome = true) : ∃ m, run (System.step (Env.calm .disabled)) (.init 64 120)
        (visited.take n) = some m := Option.isSome_iff_exists.mp h
  obtain ⟨m₁, hm₁⟩ := hgoes 1 (by decide +kernel)
  obtain ⟨m₂, hm₂⟩ := hgoes 2 (by decide +kernel)
  obtain ⟨m₃, hm₃⟩ := hgoes 3 (by decide +kernel)
  obtain ⟨m₄, hm₄⟩ := hgoes 4 (by decide +kernel)
  have hlast : ¬ m₄.Misses (Env.calm .disabled) (.wake 1 (.ended .eof)) ∧
      ¬ m₄.Orphans (Env.calm .disabled) (visited.take 4) (.wake 1 (.ended .eof)) := by
    refine ⟨(run_plain rfl hm₄).takes _, fun horphans ↦ ?_⟩
    obtain ⟨id, c', hends, hne, hann⟩ := horphans.farewell
    have hgone : (run (System.step (Env.calm .disabled)) (.init 64 120) (visited.take 4)).map
        (fun m ↦ (m.conns 1).bind fun conn ↦ conn.farewell (Env.calm .disabled) (.ended .eof)) =
          some (some (lit "B")) := by decide +kernel
    rw [hm₄, Option.map_some, hends] at hgone
    obtain rfl := Option.some.inj (Option.some.inj hgone)
    rcases visited_announced (hann.later _) with ⟨-, hid⟩ | ⟨hc, -⟩
    · exact absurd hid (by decide)
    · exact hne hc
  exact along_concat hm₄ (along_concat hm₃ (along_concat hm₂ (along_concat hm₁
    (along_concat rfl along_nil (accept_keeps rfl)) (hstays hm₁ (by decide +kernel)))
    (accept_keeps rfl)) (hstays hm₃ (by decide +kernel))) hlast

theorem presence_exact_visited :
    ∃ s, run (System.step (Env.calm .disabled)) (.init 64 120) visited = some s ∧
      (s.ing.online.get (lit "A")).isSome = true ∧ (s.ing.online.get (lit "B")).isSome = false ∧
      (∀ id, (s.ing.online.get id).isSome = true ↔
        ∃ c, s.Open c ∧ Announced (Env.calm .disabled).limit visited c id) ∧
      ∀ depth limit clock, ∃ state,
        Api.consumeState depth limit clock .empty s.ing.queue = some state ∧
          ∀ id, Api.Shows state id ↔ (s.ing.online.get id).isSome = true := by
  have honline : (run (System.step (Env.calm .disabled)) (.init 64 120) visited).map (fun s ↦
      ((s.ing.online.get (lit "A")).isSome, (s.ing.online.get (lit "B")).isSome)) =
        some (true, false) := by decide +kernel
  obtain ⟨s, hs, hd⟩ := Option.map_eq_some_iff.mp honline
  obtain ⟨hstays, hgone⟩ := Prod.mk.inj hd
  have hsingle : SingleId (Env.calm .disabled).limit visited := by
    intro c x y hx hy
    rcases visited_announced hx with ⟨hc, rfl⟩ | ⟨hc, rfl⟩
    · rcases visited_announced hy with ⟨-, rfl⟩ | ⟨hc', -⟩
      · rfl
      · omega
    · rcases visited_announced hy with ⟨hc', -⟩ | ⟨-, rfl⟩
      · omega
      · rfl
  obtain ⟨hexact, hshows, -⟩ := presence_exact 64 120 hs hsingle visited_keeps
  refine ⟨s, hs, hstays, hgone, hexact, fun depth limit clock ↦ ?_⟩
  exact hshows depth limit clock fun _ _ ↦ rfl

/-- A device that comes back before its old socket ends is offline once that one ends. -/
theorem reconnect_forgets :
    ∃ s, run (System.step (Env.calm .disabled)) (.init 64 120)
        (arrives 0 ++ arrives 1 ++ [.wake 0 (.ended .eof)]) = some s ∧
      SingleId (Env.calm .disabled).limit (arrives 0 ++ arrives 1 ++ [.wake 0 (.ended .eof)]) ∧
      s.Open 1 ∧
      Announced (Env.calm .disabled).limit (arrives 0 ++ arrives 1 ++ [.wake 0 (.ended .eof)]) 1
        (lit "A") ∧
      (s.ing.online.get (lit "A")).isSome = false := by
  have hends : (run (System.step (Env.calm .disabled)) (.init 64 120)
      (arrives 0 ++ arrives 1 ++ [.wake 0 (.ended .eof)])).map (fun s ↦
        ((s.conns 1).any fun conn ↦ conn.phase ≠ .closed, (s.ing.online.get (lit "A")).isSome)) =
        some (true, false) := by decide +kernel
  obtain ⟨s, hs, hd⟩ := Option.map_eq_some_iff.mp hends
  obtain ⟨hopen, hoff⟩ := Prod.mk.inj hd
  have hname {c : ℕ} {x : Str} (h : Announced (Env.calm .disabled).limit
      (arrives 0 ++ arrives 1 ++ [.wake 0 (.ended .eof)]) c x) : x = lit "A" := by
    have hbytes : received c (arrives 0 ++ arrives 1 ++ [.wake 0 (.ended .eof)]) =
        encodeFrame (ascii "HELLO:A") := by
      by_cases hc : 0 = c
      · simp [received, arrives, ← hc]
      by_cases hc' : 1 = c
      · simp [received, arrives, ← hc']
      · exact absurd h (not_announced (by simp [received, arrives, hc, hc']) x)
    exact announced_sole hbytes (by decide) rfl h
  refine ⟨s, hs, fun c x y hx hy ↦ (hname hx).trans (hname hy).symm, ?_,
    ⟨ascii "HELLO:A", by decide +kernel, rfl⟩, hoff⟩
  obtain ⟨conn, hc, hp⟩ := (Option.any_eq_true _ _).mp hopen
  exact ⟨conn, hc, by simpa using hp⟩

/-- In optional mode a HELLO that comes as the first frame is acted on with the next bytes only. -/
example : (run (System.step (Env.calm .optional)) (.init 64 120)
    [.accept 0 (Link.lone []).peer (Link.lone []).nonce, .wake 0 (.drained true),
      .wake 0 (.recv (encodeFrame (ascii "HELLO:A")) Registry.none)]).map (fun s ↦
        ((s.conns 0).any fun conn ↦ conn.phase ≠ .closed, (s.ing.online.get (lit "A")).isSome)) =
      some (true, false) := by
  decide +kernel

end Exact

end OpusFleet.Server
