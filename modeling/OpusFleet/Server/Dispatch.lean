import OpusFleet.Server.Framing
import OpusFleet.Server.Ingest

namespace OpusFleet.Server

open Python Library Protocol Library.Incremental

section Calls

def Payload.timeless : Payload → Payload
  | .json (.dict entries) => .json (.dict (Assoc.erase entries (lit "at")))
  | p => p

def Call.timeless (c : Call) : Call := { c with value := c.value.timeless }

def connectCall (imei : Str) (peer : Peer) : Call :=
  ⟨.events, imei, .json (.dict [(lit "imei", .str imei), (lit "event", .str (lit "connect")),
    (lit "addr", .str peer.text)])⟩

def disconnectCall (imei : Str) : Call :=
  ⟨.events, imei, .json (.dict [(lit "imei", .str imei), (lit "event", .str (lit "disconnect"))])⟩

def statCall (imei : Str) (entries : List (Str × Value)) : Call :=
  ⟨.stat, imei, .json (.dict (Assoc.set (Assoc.erase entries (lit "at")) (lit "imei") (.str imei)))⟩

def audioCall (imei : Str) (payload : Bytes) : Call := ⟨.audio, imei, .raw payload⟩

theorem statReport_timeless (imei : Str) (entries : List (Str × Value)) (t : Value) :
    (Ingest.statReport imei entries t).timeless = (statCall imei entries).value := by
  have hne : lit "imei" ≠ lit "at" := by decide
  simp only [Ingest.statReport, Payload.timeless, statCall, Assoc.erase_set_ne _ _ hne,
    Assoc.erase_set_self]

end Calls

section Produced

variable (env : Env)

def delivered : ℕ → List Call → List Message
  | _, [] => []
  | n, c :: cs => (if env.broker n = .enqueued then [c.message] else []) ++ delivered (n + 1) cs

def refused : ℕ → List Call → ℕ
  | _, [] => 0
  | n, _ :: cs => (if env.broker n = .enqueued then 0 else 1) + refused (n + 1) cs

theorem delivered_append (n : ℕ) (a b : List Call) :
    delivered env n (a ++ b) = delivered env n a ++ delivered env (n + a.length) b := by
  induction a generalizing n with
  | nil => simp [delivered]
  | cons c a ih =>
    simp only [List.cons_append, delivered, ih, List.append_assoc, List.length_cons]
    rw [show n + 1 + a.length = n + (a.length + 1) by omega]

theorem refused_append (n : ℕ) (a b : List Call) :
    refused env n (a ++ b) = refused env n a + refused env (n + a.length) b := by
  induction a generalizing n with
  | nil => simp [refused]
  | cons c a ih =>
    simp only [List.cons_append, refused, ih, List.length_cons]
    rw [show n + 1 + a.length = n + (a.length + 1) by omega, Nat.add_assoc]

theorem delivered_enqueued (n : ℕ) (calls : List Call)
    (h : ∀ k < calls.length, env.broker (n + k) = .enqueued) :
    delivered env n calls = calls.map Call.message := by
  induction calls generalizing n with
  | nil => rfl
  | cons c cs ih =>
    have hfirst : env.broker n = .enqueued := h 0 (by simp)
    have hrest (k : ℕ) (hk : k < cs.length) : env.broker (n + 1 + k) = .enqueued := by
      rw [show n + 1 + k = n + (k + 1) by omega]
      exact h (k + 1) (by simpa using hk)
    rw [delivered, if_pos hfirst, ih (n + 1) hrest]
    rfl

/-- Between two states exactly the calls `new` were made: each one the broker took is in
the queue and each other one is counted as dropped. -/
structure Produced (ing : Ingest) (new : List Call) (ing' : Ingest) : Prop where
  calls : ing'.calls = ing.calls ++ new
  queue : ing'.queue = ing.queue ++ delivered env ing.calls.length new
  dropped : ing'.dropped = ing.dropped + refused env ing.calls.length new

variable {env}

theorem Produced.silent {ing ing' : Ingest} (hc : ing'.calls = ing.calls)
    (hq : ing'.queue = ing.queue) (hd : ing'.dropped = ing.dropped) : Produced env ing [] ing' :=
  ⟨by simp [hc], by simp [hq, delivered], by simp [hd, refused]⟩

theorem Produced.trans {a b c : Ingest} {new new' : List Call} (h : Produced env a new b)
    (h' : Produced env b new' c) : Produced env a (new ++ new') c := by
  refine ⟨by rw [h'.calls, h.calls, List.append_assoc], ?_, ?_⟩
  · rw [h'.queue, h.queue, h.calls, List.length_append, delivered_append, List.append_assoc]
  · rw [h'.dropped, h.dropped, h.calls, List.length_append, refused_append, Nat.add_assoc]

theorem produce_produced (ing : Ingest) (topic : Topic) (key : Str) (value : Payload) :
    Produced env ing [⟨topic, key, value⟩] (ing.produce env topic key value) := by
  unfold Ingest.produce
  cases h : env.broker ing.calls.length <;>
    exact ⟨rfl, by simp [delivered, h], by simp [refused, h]⟩

theorem Produced.after {a b : Ingest} (h : Produced env a [] b) (topic : Topic) (key : Str)
    (value : Payload) : Produced env a [⟨topic, key, value⟩] (b.produce env topic key value) :=
  h.trans (produce_produced b topic key value)

section Actions

variable (env) (peer : Peer) (ing : Ingest) (imei : Str)

theorem hello_produced : ∃ call, Produced env ing [call] (ing.hello env peer imei) ∧
    call.timeless = connectCall imei peer := by
  unfold Ingest.hello
  refine ⟨_, Produced.after ?_ _ _ _, ?_⟩
  · exact Produced.silent rfl rfl rfl
  · rfl

theorem stat_produced (entries : List (Str × Value)) :
    ∃ call, Produced env ing [call] (ing.stat env imei entries) ∧
      call.timeless = statCall imei entries := by
  unfold Ingest.stat
  refine ⟨_, Produced.after ?_ _ _ _, ?_⟩
  · exact Produced.silent rfl rfl rfl
  · rw [Call.timeless, statReport_timeless]
    rfl

theorem audio_produced (payload : Bytes) :
    ∃ call, Produced env ing [call] (ing.audio env imei payload) ∧
      call.timeless = audioCall imei payload := by
  unfold Ingest.audio
  refine ⟨_, Produced.after ?_ _ _ _, ?_⟩
  · exact Produced.silent rfl rfl rfl
  · rfl

theorem cleanup_produced : ∃ call, Produced env ing [call] (ing.cleanup env peer imei) ∧
    call.timeless = disconnectCall imei := by
  unfold Ingest.cleanup
  refine ⟨_, Produced.after ?_ _ _ _, ?_⟩
  · exact Produced.silent rfl rfl rfl
  · rfl

end Actions

end Produced

section Frames

variable (limit : ℕ) (peer : Peer) (authed : Bool)

/-- The frames on which the body of the frame loop raises: a STAT frame whose JSON is no
object, or one nested past the recursion limit. -/
def raises (payload : Bytes) : Bool :=
  match classify limit payload with
  | .error (.protocol _) => false
  | .error _ => true
  | .ok (.stat (.dict _)) => false
  | .ok (.stat _) => true
  | .ok _ => false

/-- The one call a frame causes, stamps aside, with the id after it. -/
def emits (imei : Str) (payload : Bytes) : Option (Str × Call) :=
  match classify limit payload with
  | .ok (.hello id) => if authed ∧ id ≠ imei then none else some (id, connectCall id peer)
  | .ok (.stat (.dict entries)) => some (imei, statCall imei entries)
  | .ok (.audio _) => some (imei, audioCall imei payload)
  | _ => none

def idAfter (imei : Str) (payload : Bytes) : Str :=
  ((emits limit peer authed imei payload).map Prod.fst).getD imei

/-- The id that a socket goes offline under, after its frames from `imei` on. -/
def lastId : Str → List Bytes → Str
  | imei, [] => imei
  | imei, f :: fs => if raises limit f then imei else lastId (idAfter limit peer authed imei f) fs

/-- The frames the loop gets to: all of them, or those up to the first that raises. -/
def handled : List Bytes → List Bytes
  | [] => []
  | f :: fs => if raises limit f then [f] else f :: handled fs

/-- The calls a socket makes on its frames from `imei` on, stamps aside, its disconnect included. -/
def transcript : Str → List Bytes → List Call
  | imei, [] => [disconnectCall imei]
  | imei, f :: fs =>
    if raises limit f then [disconnectCall imei]
    else
      match emits limit peer authed imei f with
      | none => transcript imei fs
      | some (id, call) => call :: transcript id fs

end Frames

section Loops

variable (env : Env) (peer : Peer) (authed : Bool)

theorem classify_protocol {limit : ℕ} {payload : Bytes} {e : Exc}
    (h : classify limit payload = .error e) : (∃ text, e = .protocol text) ∨ e = .recursion := by
  unfold classify at h
  split at h
  · simp at h
  split at h
  · unfold parseAuth at h
    dsimp only at h
    split at h
    · exact .inl ⟨_, by simpa [Except.map] using h.symm⟩
    · split at h
      · exact .inl ⟨_, by simpa [Except.map] using h.symm⟩
      · simp [Except.map] at h
  split at h
  · unfold parseStat at h
    split at h
    · exact .inl ⟨_, by simpa [Except.map] using h.symm⟩
    · split at h
      · simp [Except.map] at h
      · exact .inl ⟨_, by simpa [Except.map] using h.symm⟩
      · exact .inr (by simpa [Except.map] using h.symm)
  · simp at h

theorem dispatch_quiet (ing : Ingest) (imei : Str) (payload : Bytes)
    (h : raises env.limit payload = false) :
    ∃ new, Produced env ing new (ing.dispatch env peer authed imei payload).1 ∧
      (ing.dispatch env peer authed imei payload).2 =
        .ok (idAfter env.limit peer authed imei payload) ∧
      new.map Call.timeless = ((emits env.limit peer authed imei payload).map Prod.snd).toList := by
  have hsilent : Produced env ing [] ing := Produced.silent rfl rfl rfl
  unfold raises at h
  unfold Ingest.dispatch idAfter emits
  rcases hc : classify env.limit payload with e | kind
  · obtain ⟨text, rfl⟩ | rfl := classify_protocol hc
    · exact ⟨[], hsilent, rfl, rfl⟩
    · simp [hc] at h
  rcases kind with id | ⟨id, mac⟩ | value | p
  · by_cases hid : authed = true ∧ id ≠ imei
    · simp only [if_pos hid]
      exact ⟨[], hsilent, rfl, rfl⟩
    · obtain ⟨call, hp, ht⟩ := hello_produced env peer ing id
      simp only [if_neg hid]
      exact ⟨[call], hp, rfl, congrArg (· :: []) ht⟩
  · exact ⟨[], hsilent, rfl, rfl⟩
  · cases value with
    | dict entries =>
      obtain ⟨call, hp, ht⟩ := stat_produced env ing imei entries
      exact ⟨[call], hp, rfl, congrArg (· :: []) ht⟩
    | _ => simp [hc] at h
  · obtain ⟨call, hp, ht⟩ := audio_produced env ing imei payload
    exact ⟨[call], hp, rfl, congrArg (· :: []) ht⟩

theorem dispatch_raises (ing : Ingest) (imei : Str) (payload : Bytes)
    (h : raises env.limit payload = true) :
    Produced env ing [] (ing.dispatch env peer authed imei payload).1 ∧
      ∃ e, (ing.dispatch env peer authed imei payload).2 = .error e := by
  have hsilent : Produced env ing [] ing := Produced.silent rfl rfl rfl
  unfold raises at h
  unfold Ingest.dispatch
  rcases hc : classify env.limit payload with e | kind
  · obtain ⟨text, rfl⟩ | rfl := classify_protocol hc
    · simp [hc] at h
    · exact ⟨hsilent, _, rfl⟩
  rcases kind with id | ⟨id, mac⟩ | value | p
  · simp [hc] at h
  · simp [hc] at h
  · cases value with
    | dict entries => simp [hc] at h
    | _ => exact ⟨Produced.silent rfl rfl rfl, _, rfl⟩
  · simp [hc] at h

@[simp] theorem produce_dispatched (ing : Ingest) (topic : Topic) (key : Str) (value : Payload) :
    (ing.produce env topic key value).dispatched = ing.dispatched := by
  unfold Ingest.produce
  cases env.broker ing.calls.length <;> rfl

theorem dispatch_dispatched (ing : Ingest) (imei : Str) (payload : Bytes) :
    (ing.dispatch env peer authed imei payload).1.dispatched = ing.dispatched := by
  unfold Ingest.dispatch
  split
  iterate 3 rfl
  · split
    · rfl
    · exact produce_dispatched env _ _ _ _
  · exact produce_dispatched env _ _ _ _
  · rfl
  · exact produce_dispatched env _ _ _ _

theorem frameLoop_spec (frames : List Bytes) (ing : Ingest) (imei : Str) :
    ∃ new, Produced env ing new (ing.frameLoop env peer authed imei frames).1 ∧
      new.map Call.timeless ++ [disconnectCall (ing.frameLoop env peer authed imei frames).2.1] =
        transcript env.limit peer authed imei frames ∧
      (ing.frameLoop env peer authed imei frames).1.dispatched =
        ing.dispatched ++ handled env.limit frames := by
  induction frames generalizing ing imei with
  | nil => exact ⟨[], Produced.silent rfl rfl rfl, rfl, by simp [handled, Ingest.frameLoop]⟩
  | cons f frames ih =>
    generalize hing : { ing with dispatched := ing.dispatched ++ [f] } = ing'
    have hbegin : Produced env ing [] ing' := hing ▸ Produced.silent rfl rfl rfl
    have hd : (ing'.dispatch env peer authed imei f).1.dispatched = ing.dispatched ++ [f] := by
      rw [dispatch_dispatched, ← hing]
    simp only [Ingest.frameLoop, hing, transcript, handled]
    cases hr : raises env.limit f with
    | true =>
      obtain ⟨hp, e, he⟩ := dispatch_raises env peer authed ing' imei f hr
      rcases hdisp : ing'.dispatch env peer authed imei f with ⟨ing₁, res⟩
      rw [hdisp] at hp he hd
      obtain rfl : res = .error e := he
      exact ⟨[], hbegin.trans hp, rfl, hd⟩
    | false =>
      obtain ⟨new, hp, he, ht⟩ := dispatch_quiet env peer authed ing' imei f hr
      rcases hdisp : ing'.dispatch env peer authed imei f with ⟨ing₁, res⟩
      rw [hdisp] at hp he hd
      obtain rfl : res = .ok _ := he
      obtain ⟨new', hp', ht', hd'⟩ := ih ing₁ (idAfter env.limit peer authed imei f)
      refine ⟨new ++ new', (hbegin.trans hp).trans hp', ?_, ?_⟩
      · rw [List.map_append, List.append_assoc, ht', ht]
        cases hem : emits env.limit peer authed imei f <;> simp [idAfter, hem]
      · rw [hd', hd, List.append_assoc]
        rfl

theorem frameLoop_raises (frames : List Bytes) (ing : Ingest) (imei : Str) :
    (ing.frameLoop env peer authed imei frames).2.2.isSome = frames.any (raises env.limit) := by
  induction frames generalizing ing imei with
  | nil => rfl
  | cons f frames ih =>
    generalize hing : { ing with dispatched := ing.dispatched ++ [f] } = ing'
    simp only [Ingest.frameLoop, hing, List.any_cons]
    cases hr : raises env.limit f with
    | true =>
      obtain ⟨-, e, he⟩ := dispatch_raises env peer authed ing' imei f hr
      rcases hdisp : ing'.dispatch env peer authed imei f with ⟨ing₁, res⟩
      rw [hdisp] at he
      obtain rfl : res = .error e := he
      rfl
    | false =>
      obtain ⟨-, -, he, -⟩ := dispatch_quiet env peer authed ing' imei f hr
      rcases hdisp : ing'.dispatch env peer authed imei f with ⟨ing₁, res⟩
      rw [hdisp] at he
      obtain rfl : res = .ok _ := he
      exact ih ing₁ _

theorem frameLoop_append (fs gs : List Bytes) (ing : Ingest) (imei : Str) :
    ing.frameLoop env peer authed imei (fs ++ gs) =
      match ing.frameLoop env peer authed imei fs with
      | (ing, imei, none) => ing.frameLoop env peer authed imei gs
      | (ing, imei, some e) => (ing, imei, some e) := by
  induction fs generalizing ing imei with
  | nil => rfl
  | cons f fs ih =>
    simp only [List.cons_append, Ingest.frameLoop]
    rcases Ingest.dispatch env peer authed _ imei f with ⟨ing₁, e | id⟩
    · rfl
    · exact ih ing₁ id

/-- The main loop over any cut of the stream is one frame loop over the frames it parses. -/
theorem mainLoop_eq (ending : Ending) (chunks : List Bytes) (hchunks : ∀ c ∈ chunks, c ≠ [])
    (ing : Ingest) (imei : Str) (buf : Bytes) :
    ing.mainLoop env peer authed ending imei buf chunks =
      match ing.frameLoop env peer authed imei (feed iterFrames buf chunks).1 with
      | (ing, imei, none) => (ing, imei, ending.raised)
      | (ing, imei, some e) => (ing, imei, some e) := by
  induction chunks generalizing ing imei buf with
  | nil => rfl
  | cons chunk chunks ih =>
    have hc : chunk ≠ [] := hchunks chunk (by simp)
    have hrest : ∀ c ∈ chunks, c ≠ [] := fun c h ↦ hchunks c (by simp [h])
    simp only [Ingest.mainLoop, if_neg hc, feed_cons, frameLoop_append]
    rcases ing.frameLoop env peer authed imei (iterFrames (buf ++ chunk)).1 with ⟨ing₁, id, _ | e⟩
    · exact ih hrest ing₁ id _
    · rfl

/-- A connection's calls from the handshake on, its disconnect included, and the frames its
loop is handed, whatever the cut. -/
theorem session_spec (ending : Ending) (chunks : List Bytes) (hchunks : ∀ c ∈ chunks, c ≠ [])
    (ing : Ingest) (imei : Str) (buf : Bytes) :
    ∃ new, Produced env ing new (ing.session env peer authed ending imei buf chunks).1 ∧
      new.map Call.timeless =
        transcript env.limit peer authed imei (feed iterFrames buf chunks).1 ∧
      (ing.session env peer authed ending imei buf chunks).1.dispatched =
        ing.dispatched ++ handled env.limit (feed iterFrames buf chunks).1 := by
  obtain ⟨new, hp, ht, hd⟩ :=
    frameLoop_spec env peer authed (feed iterFrames buf chunks).1 ing imei
  unfold Ingest.session
  rw [mainLoop_eq env peer authed ending chunks hchunks]
  rcases hl : ing.frameLoop env peer authed imei (feed iterFrames buf chunks).1 with ⟨ing₁, id, r⟩
  rw [hl] at hp ht hd
  obtain ⟨call, hc, htc⟩ := cleanup_produced env peer ing₁ id
  have hd' : (ing₁.cleanup env peer id).dispatched = ing₁.dispatched :=
    produce_dispatched env _ _ _ _
  cases r <;>
    exact ⟨new ++ [call], hp.trans hc, by rw [List.map_append, ← ht, ← htc]; rfl, hd'.trans hd⟩

end Loops

end OpusFleet.Server
