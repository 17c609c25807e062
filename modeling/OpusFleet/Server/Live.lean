import Mathlib.Data.Finset.Basic
import OpusFleet.Server.Segmenter

namespace OpusFleet.Server.Live

open Python Library Library.Runs Segmenter

/-- The socket of a listener, for the device it asked for; its handler
waits until the socket is closed. -/
structure Handler where
  imei : Str
  waiting : Bool
  deriving DecidableEq

/-- Where the worker thread stands: it polls, it has found its message watched, it has looked up the
decoder for its packet (which was given `past`), or it has decoded it. -/
inductive Worker
  | polling
  | checked (imei : Str) (value : Bytes)
  | tuned (imei : Str) (past : List Bytes) (opus : Bytes)
  | decoded (imei : Str) (pcm : Bytes)
  | closed
  deriving DecidableEq

variable {ω : Type} [DecidableEq ω]

/-- `decoders` holds what each decoder was given, `callbacks` the calls of `broadcast`
that the event loop has still to make and `broadcasts` those it has made. `freeing` is
what a handler has still to free. -/
structure State (ω : Type) where
  listeners : Dict Str (Finset ω)
  decoders : Dict Str (List Bytes)
  framesOut : ℕ
  worker : Worker
  handlers : ω → Option Handler
  freeing : Option Str
  callbacks : List (Finset ω × Bytes)
  broadcasts : List (Finset ω × Bytes)

def State.init : State ω := ⟨.empty, .empty, 0, .polling, fun _ ↦ none, none, [], []⟩

/-- What happens on the event loop and on the worker thread, each a step of its own. A broadcast
passes over the sockets that are closed. -/
inductive Event (ω : Type)
  | join (ws : ω) (imei : Str)
  | leave (ws : ω)
  | free
  | broadcast (closed : Finset ω)
  | idle
  | error
  | poll (key : Option Bytes) (value : Bytes)
  | lookUp
  | decode
  | target

namespace State

def room (s : State ω) (imei : Str) : Finset ω := (s.listeners.get imei).getD ∅

def watched (s : State ω) (imei : Str) : Prop := s.room imei ≠ ∅

instance (s : State ω) (imei : Str) : Decidable (s.watched imei) :=
  inferInstanceAs (Decidable (_ ≠ _))

def past (s : State ω) (imei : Str) : List Bytes := (s.decoders.get imei).getD []

def join (s : State ω) (ws : ω) (imei : Str) : State ω :=
  { s with
    listeners := s.listeners.set imei (insert ws (s.room imei))
    handlers := Function.update s.handlers ws (some ⟨imei, true⟩) }

def leave (s : State ω) (ws : ω) (imei : Str) : State ω :=
  let rest := (s.room imei).erase ws
  { s with
    listeners := if rest = ∅ then s.listeners.pop imei else s.listeners.set imei rest
    handlers := Function.update s.handlers ws (some ⟨imei, false⟩)
    freeing := if rest = ∅ then some imei else none }

def poll (s : State ω) (key : Option Bytes) (value : Bytes) : State ω :=
  match keyText key with
  | .error _ => { s with worker := .closed }
  | .ok imei => if s.watched imei then { s with worker := .checked imei value } else s

/-- The frame is parsed, and its decoder looked up or made. -/
def lookUp (s : State ω) (imei : Str) (value : Bytes) : State ω :=
  match Protocol.parseAudio value with
  | .error (.protocol _) => { s with worker := .polling }
  | .error _ => { s with worker := .closed }
  | .ok audio =>
    { s with
      decoders := match s.decoders.get imei with
        | some _ => s.decoders
        | none => s.decoders.set imei []
      worker := .tuned imei (s.past imei) audio.opus }

/-- The decoder is given the packet. It is still in the table unless a handler has freed it since
the look-up: only the worker puts decoders there. -/
def decode (s : State ω) (decoder : List Bytes → Bytes → Option Bytes) (imei : Str)
    (past : List Bytes) (opus : Bytes) : State ω :=
  { s with
    decoders := match s.decoders.get imei with
      | some _ => s.decoders.set imei (past ++ [opus])
      | none => s.decoders
    worker := match decoder past opus with
      | none => .polling
      | some pcm => .decoded imei pcm }

def target (s : State ω) (imei : Str) (pcm : Bytes) : State ω :=
  let targets := s.room imei
  if targets = ∅ then { s with worker := .polling }
  else
    { s with
      worker := .polling
      framesOut := s.framesOut + 1
      callbacks := s.callbacks ++ [(targets, pcm)] }

end State

/-- `decoder past opus` is what a decoder that was given `past` makes of `opus`, `none` when it
raises. The steps of the event loop wait for a handler that is in the middle of its clean-up. -/
def step (decoder : List Bytes → Bytes → Option Bytes) (s : State ω) : Event ω → Option (State ω)
  | .join ws imei => if s.freeing = none ∧ s.handlers ws = none then some (s.join ws imei) else none
  | .leave ws => match s.freeing, s.handlers ws with
    | none, some ⟨imei, true⟩ => some (s.leave ws imei)
    | _, _ => none
  | .free => match s.freeing with
    | some imei => some { s with decoders := s.decoders.pop imei, freeing := none }
    | none => none
  | .broadcast closed => match s.freeing, s.callbacks with
    | none, (targets, pcm) :: callbacks =>
      some { s with callbacks := callbacks, broadcasts :=
        s.broadcasts ++ [(targets \ closed, pcm)] }
    | _, _ => none
  | .idle | .error => if s.worker = .polling then some s else none
  | .poll key value => if s.worker = .polling then some (s.poll key value) else none
  | .lookUp => match s.worker with
    | .checked imei value => some (s.lookUp imei value)
    | _ => none
  | .decode => match s.worker with
    | .tuned imei past opus => some (s.decode decoder imei past opus)
    | _ => none
  | .target => match s.worker with
    | .decoded imei pcm => some (s.target imei pcm)
    | _ => none

inductive Turn (decoder : List Bytes → Bytes → Option Bytes) (s : State ω) :
    Event ω → State ω → Prop
  | join {ws : ω} {imei : Str} (idle : s.freeing = none) (fresh : s.handlers ws = none) :
    Turn decoder s (.join ws imei) (s.join ws imei)
  | leave {ws : ω} {imei : Str} (idle : s.freeing = none) (waits : s.handlers ws =
    some ⟨imei, true⟩) :
    Turn decoder s (.leave ws) (s.leave ws imei)
  | free {imei : Str} (freeing : s.freeing = some imei) :
    Turn decoder s .free { s with decoders := s.decoders.pop imei, freeing := none }
  | broadcast {closed targets : Finset ω} {pcm : Bytes} {callbacks : List
    (Finset ω × Bytes)} (idle : s.freeing = none)
      (next : s.callbacks = (targets, pcm) :: callbacks) :
    Turn decoder s (.broadcast closed)
      { s with callbacks := callbacks, broadcasts := s.broadcasts ++ [(targets \ closed, pcm)] }
  | idle : Turn decoder s .idle s
  | error : Turn decoder s .error s
  | poll {key : Option Bytes} {value : Bytes} (polls : s.worker = .polling) :
    Turn decoder s (.poll key value) (s.poll key value)
  | lookUp {imei : Str} {value : Bytes} (checks : s.worker = .checked imei value) :
    Turn decoder s .lookUp (s.lookUp imei value)
  | decode {imei : Str} {past : List Bytes} {opus : Bytes} (tunes : s.worker =
    .tuned imei past opus) :
    Turn decoder s .decode (s.decode decoder imei past opus)
  | target {imei : Str} {pcm : Bytes} (holds : s.worker = .decoded imei pcm) :
    Turn decoder s .target (s.target imei pcm)

section Steps

variable {decoder : List Bytes → Bytes → Option Bytes} {s s' : State ω} {e : Event ω}

theorem step_turn (h : step decoder s e = some s') : Turn decoder s e s' := by
  cases e with
  | join ws imei =>
    obtain ⟨⟨hidle, hfresh⟩, rfl⟩ : (s.freeing = none ∧ s.handlers ws = none) ∧
        s.join ws imei = s' := by
      simpa [step] using h
    exact .join hidle hfresh
  | leave ws =>
    rw [step] at h
    split at h
    · next hidle hwaits =>
      obtain rfl := Option.some.inj h
      exact .leave hidle hwaits
    · cases h
  | free =>
    rw [step] at h
    split at h
    · next hfreeing =>
      obtain rfl := Option.some.inj h
      exact .free hfreeing
    · cases h
  | broadcast closed =>
    rw [step] at h
    split at h
    · next hidle hnext =>
      obtain rfl := Option.some.inj h
      exact .broadcast hidle hnext
    · cases h
  | idle =>
    obtain ⟨-, rfl⟩ : s.worker = .polling ∧ s = s' := by simpa [step] using h
    exact .idle
  | error =>
    obtain ⟨-, rfl⟩ : s.worker = .polling ∧ s = s' := by simpa [step] using h
    exact .error
  | poll key value =>
    obtain ⟨hpolls, rfl⟩ : s.worker = .polling ∧ s.poll key value = s' := by simpa [step] using h
    exact .poll hpolls
  | lookUp =>
    rw [step] at h
    split at h
    · next hchecks =>
      obtain rfl := Option.some.inj h
      exact .lookUp hchecks
    · cases h
  | decode =>
    rw [step] at h
    split at h
    · next htunes =>
      obtain rfl := Option.some.inj h
      exact .decode htunes
    · cases h
  | target =>
    rw [step] at h
    split at h
    · next hholds =>
      obtain rfl := Option.some.inj h
      exact .target hholds
    · cases h

/-- The sockets in the room of a device are those whose handlers wait there. -/
structure Tabled (s : State ω) : Prop where
  room : ∀ imei ws, ws ∈ s.room imei ↔ s.handlers ws = some ⟨imei, true⟩
  freeing : ∀ imei, s.freeing = some imei → s.room imei = ∅

@[simp] theorem join_room (s : State ω) (ws : ω) (imei x : Str) :
    (s.join ws imei).room x = if x = imei then insert ws (s.room imei) else s.room x := by
  simp only [State.room, State.join, Dict.get_set]
  split <;> rfl

@[simp] theorem leave_room (s : State ω) (ws : ω) (imei x : Str) :
    (s.leave ws imei).room x = if x = imei then (s.room imei).erase ws else s.room x := by
  rw [State.room, State.leave]
  dsimp only
  split
  · next hempty =>
    by_cases hx : x = imei
    · subst hx
      rw [Dict.get_pop_self, if_pos rfl, hempty]
      rfl
    · rw [Dict.get_pop_ne _ hx, if_neg hx, State.room]
  · rw [Dict.get_set]
    split <;> rfl

@[simp] theorem join_handlers (s : State ω) (ws y : ω) (imei : Str) :
    (s.join ws imei).handlers y = if y = ws then some ⟨imei, true⟩ else s.handlers y := by
  simp only [State.join, Function.update_apply]

@[simp] theorem leave_handlers (s : State ω) (ws y : ω) (imei : Str) :
    (s.leave ws imei).handlers y = if y = ws then some ⟨imei, false⟩ else s.handlers y := by
  simp only [State.leave, Function.update_apply]

omit [DecidableEq ω] in
theorem lookUp_tables (s : State ω) (imei : Str) (value : Bytes) : ∃ decoders worker,
    s.lookUp imei value = { s with decoders := decoders, worker := worker } := by
  rw [State.lookUp]
  split
  · exact ⟨s.decoders, _, rfl⟩
  · exact ⟨s.decoders, _, rfl⟩
  · exact ⟨_, _, rfl⟩

omit [DecidableEq ω] in
theorem decode_tables (s : State ω) (decoder : List Bytes → Bytes → Option Bytes) (imei : Str)
    (past : List Bytes) (opus : Bytes) : ∃ decoders worker,
    s.decode decoder imei past opus = { s with decoders := decoders, worker := worker } :=
  ⟨_, _, rfl⟩

theorem poll_tables (s : State ω) (key : Option Bytes) (value : Bytes) :
    ∃ worker, s.poll key value = { s with worker := worker } := by
  rw [State.poll]
  split
  · exact ⟨_, rfl⟩
  · split
    · exact ⟨_, rfl⟩
    · exact ⟨s.worker, rfl⟩

theorem target_tables (s : State ω) (imei : Str) (pcm : Bytes) : ∃ framesOut,
    s.target imei pcm = { s with
      worker := .polling
      framesOut := framesOut
      callbacks := s.callbacks ++ if s.room imei = ∅ then [] else [(s.room imei, pcm)] } := by
  rw [State.target]
  split
  · exact ⟨s.framesOut, by rw [List.append_nil]⟩
  · exact ⟨_, rfl⟩

omit [DecidableEq ω] in
theorem Tabled.congr (h : Tabled s) (hlisteners : s'.listeners = s.listeners)
    (hhandlers : s'.handlers = s.handlers) (hfreeing : s'.freeing = s.freeing) : Tabled s' := by
  have hroom (imei : Str) : s'.room imei = s.room imei := by rw [State.room, State.room, hlisteners]
  refine ⟨fun imei ws ↦ ?_, fun imei hf ↦ ?_⟩
  · rw [hroom, hhandlers]
    exact h.room imei ws
  · rw [hroom]
    exact h.freeing imei (hfreeing ▸ hf)

theorem join_tabled (h : Tabled s) {ws : ω} {imei : Str} (hidle : s.freeing = none)
    (hfresh : s.handlers ws = none) :
    Tabled (s.join ws imei) := by
  refine ⟨fun x y ↦ ?_, fun x hx ↦ ?_⟩
  · have hroom := h.room x y
    by_cases hy : y = ws
    · subst hy
      rw [hfresh] at hroom
      by_cases hx : x = imei
      · simp [hx]
      · simpa [hx, Ne.symm hx] using hroom
    · by_cases hx : x = imei
      · subst hx
        simpa [hy] using hroom
      · simpa [hx, hy] using hroom
  · cases hidle.symm.trans hx

theorem leave_tabled (h : Tabled s) {ws : ω} {imei : Str}
    (hwaits : s.handlers ws = some ⟨imei, true⟩) :
    Tabled (s.leave ws imei) := by
  refine ⟨fun x y ↦ ?_, fun x hx ↦ ?_⟩
  · have hroom := h.room x y
    by_cases hy : y = ws
    · subst hy
      rw [hwaits] at hroom
      by_cases hx : x = imei
      · simp [hx]
      · simpa [hx, Ne.symm hx] using hroom
    · by_cases hx : x = imei
      · subst hx
        simpa [hy] using hroom
      · simpa [hx, hy] using hroom
  · simp only [State.leave] at hx
    split at hx
    · next hempty =>
      obtain rfl := Option.some.inj hx
      rw [leave_room, if_pos rfl, hempty]
    · cases hx

theorem step_tabled (h : Tabled s) (hstep : step decoder s e = some s') : Tabled s' := by
  cases step_turn hstep with
  | join hidle hfresh => exact join_tabled h hidle hfresh
  | leave hidle hwaits => exact leave_tabled h hwaits
  | free hfreeing => exact ⟨h.room, by simp⟩
  | broadcast | idle | error => exact h.congr rfl rfl rfl
  | poll =>
    obtain ⟨worker, hpoll⟩ := poll_tables s _ _
    rw [hpoll]
    exact h.congr rfl rfl rfl
  | lookUp =>
    obtain ⟨decoders, worker, hlookUp⟩ := lookUp_tables s _ _
    rw [hlookUp]
    exact h.congr rfl rfl rfl
  | decode =>
    obtain ⟨decoders, worker, hdecode⟩ := decode_tables s decoder _ _ _
    rw [hdecode]
    exact h.congr rfl rfl rfl
  | target =>
    obtain ⟨framesOut, htarget⟩ := target_tables s _ _
    rw [htarget]
    exact h.congr rfl rfl rfl

theorem run_tabled {es : List (Event ω)} (hrun : run (step decoder) .init es = some s) :
    Tabled s := by
  have hinit : Tabled (State.init : State ω) :=
    ⟨by simp [State.init, State.room], by simp [State.init]⟩
  exact run_induction (I := fun _ s ↦ Tabled s) hinit (fun _ _ _ _ _ h _ hstep ↦
    step_tabled h hstep)
      (throughout_true es) hrun

end Steps

end OpusFleet.Server.Live
