import OpusFleet.Server.Live
import OpusFleet.Server.Recordings

namespace OpusFleet.Server.Live

open Python Library Library.Runs Segmenter

variable {ω : Type} [DecidableEq ω]

section Hearing

variable {decoder : List Bytes → Bytes → Option Bytes} {s s' : State ω} {e : Event ω}
    {ws : ω} {imei : Str}

/-- What one decoder makes of the packets `ps` after those in `past`. -/
def airs (decoder : List Bytes → Bytes → Option Bytes) : List Bytes → List Bytes → List Bytes
  | _, [] => []
  | past, p :: ps => (decoder past p).toList ++ airs decoder (past ++ [p]) ps

theorem airs_append (decoder : List Bytes → Bytes → Option Bytes) (past ps qs : List Bytes) :
    airs decoder past (ps ++ qs) = airs decoder past ps ++ airs decoder (past ++ ps) qs := by
  induction ps generalizing past with
  | nil => rw [List.nil_append, airs, List.nil_append, List.append_nil]
  | cons p ps ih => rw [List.cons_append, airs, airs, ih, List.append_assoc, List.append_assoc,
    List.singleton_append]

def Worker.holds (decoder : List Bytes → Bytes → Option Bytes) (imei : Str) : Worker → List Bytes
  | .tuned x past opus => if x = imei then (decoder past opus).toList else []
  | .decoded x pcm => if x = imei then [pcm] else []
  | _ => []

def Worker.owes (imei : Str) : Worker → List Bytes
  | .checked x value => if x = imei then (packetOf value).toList else []
  | _ => []

/-- What the decoder of `imei` in the table was given, with the packet
that it is about to be given. -/
def State.given (s : State ω) (imei : Str) : List Bytes :=
  match s.worker with
  | .tuned x past opus => if x = imei ∧ (s.decoders.get imei).isSome = true
    then past ++ [opus] else s.past imei
  | _ => s.past imei

/-- What was handed over for a socket: what it was sent, and what the
event loop has still to send. -/
def State.heard (s : State ω) (ws : ω) : List Bytes :=
  ((s.broadcasts ++ s.callbacks).filter fun b ↦ ws ∈ b.1).map Prod.snd

def consumed (imei : Str) (es : List (Event ω)) : List Bytes :=
  es.flatMap fun
    | .poll key value => if names imei (key, value) then (packetOf value).toList else []
    | _ => []

/-- What a socket has heard since the state `m`, in which it came to listen. -/
structure Hearing (decoder : List Bytes → Bytes → Option Bytes) (ws : ω) (imei : Str) (m : State ω)
    (es : List (Event ω)) (s : State ω) : Prop where
  tabled : Tabled s
  waits : s.handlers ws = some ⟨imei, true⟩
  packets : ∃ ps, s.heard ws ++ s.worker.holds decoder imei =
      m.heard ws ++ m.worker.holds decoder imei ++ airs decoder (m.given imei) ps ∧
    ps ++ s.worker.owes imei = m.worker.owes imei ++ consumed imei es ∧
    s.given imei = m.given imei ++ ps

variable {m : State ω} {es : List (Event ω)}

theorem Hearing.mem (h : Hearing decoder ws imei m es s) : ws ∈ s.room imei :=
  (h.tabled.room imei ws).mpr h.waits

omit [DecidableEq ω] in
theorem consumed_snoc (imei : Str) (es : List (Event ω)) (e : Event ω) :
    consumed imei (es ++ [e]) = consumed imei es ++ consumed imei [e] := List.flatMap_append

theorem Hearing.more (h : Hearing decoder ws imei m es s) (htabled : Tabled s')
    (hwaits : s'.handlers ws = s.handlers ws) (qs : List Bytes)
    (hheard : s'.heard ws ++ s'.worker.holds decoder imei =
      s.heard ws ++ s.worker.holds decoder imei ++ airs decoder (s.given imei) qs)
    (howes : qs ++ s'.worker.owes imei = s.worker.owes imei ++ consumed imei [e])
    (hgiven : s'.given imei = s.given imei ++ qs) : Hearing decoder ws imei m (es ++ [e]) s' := by
  obtain ⟨ps, hheard', howes', hgiven'⟩ := h.packets
  refine ⟨htabled, hwaits.trans h.waits, ps ++ qs, ?_, ?_, ?_⟩
  · rw [hheard, hheard', hgiven', airs_append, List.append_assoc]
  · rw [consumed_snoc, List.append_assoc, howes, ← List.append_assoc, howes', List.append_assoc]
  · rw [hgiven, hgiven', List.append_assoc]

omit [DecidableEq ω] in
theorem given_congr (hworker : s'.worker = s.worker)
    (hget : s'.decoders.get imei = s.decoders.get imei) :
    s'.given imei = s.given imei := by
  simp only [State.given, State.past, hworker, hget]

omit [DecidableEq ω] in
theorem given_eq_past (h : ∀ past opus, s.worker ≠ .tuned imei past opus) :
    s.given imei = s.past imei := by
  rw [State.given]
  split
  · next x past opus hworker =>
    rw [if_neg]
    rintro ⟨rfl, -⟩
    exact h past opus hworker
  · rfl

theorem Hearing.keep (h : Hearing decoder ws imei m es s) (htabled : Tabled s')
    (hwaits : s'.handlers ws = s.handlers ws) (hheard : s'.heard ws = s.heard ws)
    (hworker : s'.worker = s.worker)
    (hget : s'.decoders.get imei = s.decoders.get imei) (hsilent : consumed imei [e] = []) :
    Hearing decoder ws imei m (es ++ [e]) s' := by
  refine h.more htabled hwaits [] ?_ ?_ ?_
  · rw [hheard, hworker, airs, List.append_nil]
  · rw [hworker, hsilent, List.append_nil, List.nil_append]
  · rw [given_congr hworker hget, List.append_nil]

theorem poll_owes (decoder : List Bytes → Bytes → Option Bytes) (hpolls : s.worker = .polling)
    (hwatched : s.watched imei) (key : Option Bytes) (value : Bytes) :
    (s.poll key value).worker.holds decoder imei = [] ∧
      (s.poll key value).worker.owes imei = consumed imei [(.poll key value : Event ω)] ∧
      (s.poll key value).given imei = s.given imei := by
  have hconsumed : consumed imei [(.poll key value : Event ω)] =
      if names imei (key, value) then (packetOf value).toList else [] := List.flatMap_singleton _ _
  have hgiven : s.given imei = s.past imei := given_eq_past (by simp [hpolls])
  rw [hconsumed, hgiven, State.poll]
  cases hkey : keyText key with
  | error e =>
    have hnames : names imei (key, value) = false := by simp [names, hkey]
    rw [hnames]
    exact ⟨rfl, rfl, rfl⟩
  | ok x =>
    have hnames : names imei (key, value) = decide (x = imei) := by simp [names, hkey]
    simp only [hnames, decide_eq_true_eq]
    by_cases hx : x = imei
    · subst hx
      rw [if_pos hwatched, if_pos rfl]
      exact ⟨rfl, if_pos rfl, rfl⟩
    · rw [if_neg hx]
      split
      · exact ⟨rfl, if_neg hx, rfl⟩
      · rw [hpolls]
        exact ⟨rfl, rfl, hgiven⟩

theorem poll_hearing (h : Hearing decoder ws imei m es s) (hpolls : s.worker = .polling)
    (key : Option Bytes) (value : Bytes) (htabled : Tabled (s.poll key value)) :
    Hearing decoder ws imei m (es ++ [.poll key value]) (s.poll key value) := by
  obtain ⟨hholds, howes, hgiven⟩ :=
    poll_owes decoder hpolls (Finset.ne_empty_of_mem h.mem) key value
  have hheard : (s.poll key value).heard ws = s.heard ws := by
    obtain ⟨worker, hpoll⟩ := poll_tables s key value
    rw [hpoll]
    rfl
  have hwaits : (s.poll key value).handlers ws = s.handlers ws := by
    obtain ⟨worker, hpoll⟩ := poll_tables s key value
    rw [hpoll]
  refine h.more htabled hwaits [] ?_ ?_ ?_
  · rw [hholds, hpolls, hheard]
    simp [Worker.holds, airs]
  · rw [howes, hpolls]
    rfl
  · rw [hgiven, List.append_nil]

omit [DecidableEq ω] in
theorem lookUp_owed (decoder : List Bytes → Bytes → Option Bytes) (imei : Str) {x : Str}
    {value : Bytes} (hchecks : s.worker = .checked x value) :
    (s.lookUp x value).worker.owes imei = [] ∧
      (s.lookUp x value).worker.holds decoder imei = airs decoder (s.given imei)
        (s.worker.owes imei) ∧
      (s.lookUp x value).given imei = s.given imei ++ s.worker.owes imei := by
  have hgiven : s.given imei = s.past imei := given_eq_past (by simp [hchecks])
  rw [hgiven, hchecks, State.lookUp, Worker.owes, packetOf]
  cases hparse : Protocol.parseAudio value with
  | error e =>
    have hnone : (if x = imei then (none : Option Bytes).toList else []) = [] := ite_self _
    rw [hnone, List.append_nil, airs]
    cases e <;> exact ⟨rfl, rfl, rfl⟩
  | ok audio =>
    by_cases hx : x = imei
    · subst hx
      rw [if_pos rfl, Option.toList_some, airs, airs, List.append_nil]
      refine ⟨rfl, if_pos rfl, if_pos ⟨rfl, ?_⟩⟩
      cases hget : s.decoders.get x with
      | none => simp
      | some past => simp [hget]
    · rw [if_neg hx, airs, List.append_nil]
      refine ⟨rfl, if_neg hx, (if_neg fun h ↦ hx h.1).trans ?_⟩
      cases hget : s.decoders.get x with
      | none => simp [State.past, Dict.get_set_ne _ _ (Ne.symm hx)]
      | some past => rfl

theorem lookUp_hearing (h : Hearing decoder ws imei m es s) {x : Str} {value : Bytes}
    (hchecks : s.worker = .checked x value) (htabled : Tabled (s.lookUp x value)) :
    Hearing decoder ws imei m (es ++ [.lookUp]) (s.lookUp x value) := by
  obtain ⟨howes, hholds, hgiven⟩ := lookUp_owed decoder imei hchecks
  obtain ⟨decoders, worker, hlookUp⟩ := lookUp_tables s x value
  have hheard : (s.lookUp x value).heard ws = s.heard ws := by
    rw [hlookUp]
    rfl
  have hwaits : (s.lookUp x value).handlers ws = s.handlers ws := by rw [hlookUp]
  refine h.more htabled hwaits _ ?_ ?_ hgiven
  · rw [hholds, hheard, hchecks]
    simp [Worker.holds]
  · rw [howes]
    rfl

omit [DecidableEq ω] in
theorem decode_done (decoder : List Bytes → Bytes → Option Bytes) (imei : Str) {x : Str}
    {past : List Bytes} {opus : Bytes} (htunes : s.worker = .tuned x past opus) :
    (s.decode decoder x past opus).worker.owes imei = s.worker.owes imei ∧
      (s.decode decoder x past opus).worker.holds decoder imei = s.worker.holds decoder imei ∧
      (s.decode decoder x past opus).given imei = s.given imei := by
  have hdone : ∀ past' opus', (s.decode decoder x past opus).worker ≠ .tuned imei past' opus' := by
    intro past' opus'
    rw [State.decode]
    dsimp only
    split <;> simp
  rw [given_eq_past hdone, htunes, State.decode]
  dsimp only
  refine ⟨?_, ?_, ?_⟩
  · cases decoder past opus <;> rfl
  · cases hpcm : decoder past opus <;> simp [Worker.holds, hpcm]
  · simp only [State.given, htunes, State.past]
    by_cases hx : x = imei
    · subst hx
      cases hget : s.decoders.get x with
      | none => simp [hget]
      | some past' => simp
    · rw [if_neg fun h ↦ hx h.1]
      cases s.decoders.get x with
      | none => rfl
      | some past' => rw [Dict.get_set_ne _ _ (Ne.symm hx)]

theorem decode_hearing (h : Hearing decoder ws imei m es s) {x : Str}
    {past : List Bytes} {opus : Bytes}
    (htunes : s.worker = .tuned x past opus) (htabled : Tabled (s.decode decoder x past opus)) :
    Hearing decoder ws imei m (es ++ [.decode]) (s.decode decoder x past opus) := by
  obtain ⟨howes, hholds, hgiven⟩ := decode_done decoder imei htunes
  refine h.more htabled rfl [] ?_ ?_ ?_
  · rw [hholds, airs, List.append_nil]
    rfl
  · rw [howes, List.nil_append]
    exact (List.append_nil _).symm
  · rw [hgiven, List.append_nil]

theorem heard_append (s : State ω) (ws : ω) (targets : Finset ω) (pcm : Bytes) (worker : Worker)
    (framesOut : ℕ) :
    ({ s with
      worker := worker
      framesOut := framesOut
      callbacks := s.callbacks ++ if targets =
        ∅ then [] else [(targets, pcm)] } : State ω).heard ws =
        s.heard ws ++ if ws ∈ targets then [pcm] else [] := by
  simp only [State.heard]
  rw [← List.append_assoc, List.filter_append, List.map_append]
  congr 1
  by_cases hempty : targets = ∅
  · simp [hempty]
  · by_cases hmem : ws ∈ targets <;> simp [hempty, hmem]

theorem target_hearing (h : Hearing decoder ws imei m es s) {x : Str} {pcm : Bytes}
    (hholds : s.worker = .decoded x pcm)
    (htabled : Tabled (s.target x pcm)) :
    Hearing decoder ws imei m (es ++ [.target]) (s.target x pcm) := by
  obtain ⟨framesOut, htarget⟩ := target_tables s x pcm
  have hmem : ws ∈ s.room x ↔ x = imei := by
    rw [h.tabled.room, h.waits]
    simp [eq_comm]
  have hgiven : s.given imei = s.past imei := given_eq_past (by simp [hholds])
  rw [htarget] at htabled ⊢
  refine h.more htabled rfl [] ?_ ?_ ?_
  · rw [heard_append, hholds, airs]
    simp [Worker.holds, hmem]
  · rw [hholds]
    rfl
  · rw [hgiven, List.append_nil]
    rfl

theorem broadcast_heard (s : State ω) {closed targets : Finset ω} {pcm : Bytes}
    {callbacks : List (Finset ω × Bytes)}
    (hnext : s.callbacks = (targets, pcm) :: callbacks) (hopen : ws ∉ closed) :
    ({ s with callbacks := callbacks, broadcasts :=
  s.broadcasts ++ [(targets \ closed, pcm)] } : State ω).heard ws =
      s.heard ws := by
  simp only [State.heard, hnext]
  by_cases hmem : ws ∈ targets <;> simp [hmem, hopen]

theorem step_hearing (h : Hearing decoder ws imei m es s) (hleave : e ≠ .leave ws)
    (hopen : ∀ closed, e = .broadcast closed → ws ∉ closed) (hstep : step decoder s e = some s') :
    Hearing decoder ws imei m (es ++ [e]) s' := by
  have htabled := step_tabled h.tabled hstep
  cases step_turn hstep with
  | @join y x hidle hfresh =>
    have hother : ws ≠ y := by
      rintro rfl
      cases hfresh.symm.trans h.waits
    exact h.keep htabled (by simp [hother]) rfl rfl rfl rfl
  | @leave y x hidle hwaits =>
    have hother : ws ≠ y := fun hy ↦ hleave (by rw [hy])
    exact h.keep htabled (by simp [hother]) rfl rfl rfl rfl
  | @free x hfreeing =>
    have hother : imei ≠ x := by
      rintro rfl
      have hmem := h.mem
      rw [h.tabled.freeing imei hfreeing] at hmem
      cases hmem
    exact h.keep htabled rfl rfl rfl (Dict.get_pop_ne _ hother) rfl
  | @broadcast closed targets pcm callbacks hidle hnext =>
    exact h.keep htabled rfl (broadcast_heard s hnext (hopen closed rfl)) rfl rfl rfl
  | idle | error => exact h.keep htabled rfl rfl rfl rfl rfl
  | poll hpolls => exact poll_hearing h hpolls _ _ htabled
  | lookUp hchecks => exact lookUp_hearing h hchecks htabled
  | decode htunes => exact decode_hearing h htunes htabled
  | target hholds => exact target_hearing h hholds htabled

theorem step_deaf (htabled : Tabled s) (hdeaf : ∀ imei, s.handlers ws ≠ some ⟨imei, true⟩)
    (hstep : step decoder s e = some s') : (s'.heard ws).Sublist (s.heard ws) := by
  cases step_turn hstep with
  | join | leave | free | idle | error => exact List.Sublist.refl _
  | @broadcast closed targets pcm callbacks hidle hnext =>
    have hheard : s.heard ws = (s.broadcasts.filter fun b ↦ ws ∈ b.1).map Prod.snd ++
        ((if ws ∈ targets then [pcm] else []) ++ (callbacks.filter fun b ↦ ws ∈
          b.1).map Prod.snd) := by
      simp only [State.heard, hnext]
      by_cases hmem : ws ∈ targets <;> simp [hmem]
    rw [hheard]
    simp only [State.heard]
    by_cases hmem : ws ∈ targets \ closed
    · have htarget : ws ∈ targets := (Finset.mem_sdiff.mp hmem).1
      simp [hmem, htarget]
    · simp [hmem]
  | poll =>
    obtain ⟨worker, hpoll⟩ := poll_tables s _ _
    rw [hpoll]
    exact List.Sublist.refl _
  | lookUp =>
    obtain ⟨decoders, worker, hlookUp⟩ := lookUp_tables s _ _
    rw [hlookUp]
    exact List.Sublist.refl _
  | decode => exact List.Sublist.refl _
  | @target x pcm hholds =>
    obtain ⟨framesOut, htarget⟩ := target_tables s x pcm
    rw [htarget, heard_append, if_neg fun hmem ↦ hdeaf x ((htabled.room x ws).mp hmem),
      List.append_nil]

theorem step_handlers (hstep : step decoder s e = some s') :
    (s'.handlers ws = none → s.handlers ws = none) ∧
      ∀ imei, s.handlers ws = some ⟨imei, false⟩ → s'.handlers ws = some ⟨imei, false⟩ := by
  cases step_turn hstep with
  | @join y x hidle hfresh =>
    rw [join_handlers]
    split
    · next hy =>
      rw [hy, hfresh]
      simp
    · exact ⟨id, fun _ h ↦ h⟩
  | @leave y x hidle hwaits =>
    rw [leave_handlers]
    split
    · next hy =>
      rw [hy, hwaits]
      simp
    · exact ⟨id, fun _ h ↦ h⟩
  | free | broadcast | idle | error => exact ⟨id, fun _ h ↦ h⟩
  | poll =>
    obtain ⟨worker, hpoll⟩ := poll_tables s _ _
    rw [hpoll]
    exact ⟨id, fun _ h ↦ h⟩
  | lookUp =>
    obtain ⟨decoders, worker, hlookUp⟩ := lookUp_tables s _ _
    rw [hlookUp]
    exact ⟨id, fun _ h ↦ h⟩
  | decode => exact ⟨id, fun _ h ↦ h⟩
  | target =>
    obtain ⟨framesOut, htarget⟩ := target_tables s _ _
    rw [htarget]
    exact ⟨id, fun _ h ↦ h⟩

theorem run_unheard (hrun : run (step decoder) .init es = some s) (hnone : s.handlers ws = none) :
    s.heard ws = [] := by
  refine run_induction (I := fun _ s ↦ s.handlers ws = none → s.heard ws = [])
    (fun _ ↦ rfl) ?_ (throughout_true es)
    hrun hnone
  intro es m e m' hm ih _ hstep hnone
  have hbefore := (step_handlers hstep).1 hnone
  have hless := step_deaf (run_tabled hm) (fun imei h ↦ by cases hbefore.symm.trans h) hstep
  rw [ih hbefore] at hless
  exact List.sublist_nil.mp hless

theorem run_left (htabled : Tabled m) (hleft : m.handlers ws = some ⟨imei, false⟩)
    (hrun : run (step decoder) m es = some s) : (s.heard ws).Sublist (m.heard ws) := by
  have hkept : Tabled s ∧ s.handlers ws = some ⟨imei, false⟩ ∧
      (s.heard ws).Sublist (m.heard ws) := by
    refine run_induction
      (I := fun _ s ↦ Tabled s ∧ s.handlers ws = some ⟨imei, false⟩ ∧
        (s.heard ws).Sublist (m.heard ws))
      ⟨htabled, hleft, List.Sublist.refl _⟩ ?_ (throughout_true es) hrun
    rintro es s e s' - ⟨htabled, hleft, hless⟩ - hstep
    refine ⟨step_tabled htabled hstep, (step_handlers hstep).2 imei hleft, ?_⟩
    exact (step_deaf htabled (fun x h ↦ by cases hleft.symm.trans h) hstep).trans hless
  exact hkept.2.2

theorem hearing_start (hrun : run (step decoder) .init es = some m) (hidle : m.freeing = none)
    (hfresh : m.handlers ws = none) : Hearing decoder ws imei m [] (m.join ws imei) := by
  refine ⟨join_tabled (run_tabled hrun) hidle hfresh, by simp, [], ?_, ?_, ?_⟩
  · rw [airs, List.append_nil]
    rfl
  · exact (List.append_nil _).symm
  · exact (List.append_nil _).symm

theorem run_hearing {before during : List (Event ω)}
    (hrun : run (step decoder) .init (before ++ .join ws imei :: during) = some s)
    (hstays : .leave ws ∉ during) (hopen : ∀ closed, .broadcast closed ∈ during → ws ∉ closed) :
    ∃ m, run (step decoder) .init before = some m ∧ m.heard ws = [] ∧
      Hearing decoder ws imei m during s := by
  obtain ⟨m, m', hm, hjoin, hduring⟩ := run_cut hrun
  obtain ⟨⟨hidle, hfresh⟩, rfl⟩ : (m.freeing = none ∧ m.handlers ws = none) ∧
      m.join ws imei = m' := by
    simpa [step] using hjoin
  refine ⟨m, hm, run_unheard hm hfresh, ?_⟩
  clear hrun
  induction during using List.reverseRecOn generalizing s with
  | nil =>
    obtain rfl : m.join ws imei = s := by simpa using hduring
    exact hearing_start hm hidle hfresh
  | append_singleton during e ih =>
    obtain ⟨m₁, hm₁, hstep⟩ := (run_concat _).mp hduring
    refine step_hearing (ih (fun h ↦ hstays (by simp [h]))
      (fun closed h ↦ hopen closed (by simp [h])) hm₁) ?_ ?_ hstep
    · rintro rfl
      exact hstays (by simp)
    · rintro closed rfl
      exact hopen closed (by simp)

/-- A listener hears its device from when it joins until it leaves: what was in hand as it
joined, and then every packet that is polled, none left out, decoded in order by one
decoder, up to what is in hand now. It hears nothing of another device, and once it has left
nothing more is handed over for it. -/
theorem listener_hears {before during : List (Event ω)}
    (hrun : run (step decoder) .init (before ++ .join ws imei :: during) = some s)
    (hstays : .leave ws ∉ during) (hopen : ∀ closed, .broadcast closed ∈ during → ws ∉ closed) :
    ∃ m ps, run (step decoder) .init before = some m ∧
      s.heard ws ++ s.worker.holds decoder imei =
        m.worker.holds decoder imei ++ airs decoder (m.given imei) ps ∧
      ps ++ s.worker.owes imei = m.worker.owes imei ++ consumed imei during ∧
      ∀ after t, run (step decoder) s (.leave ws :: after) = some t →
        (t.heard ws).Sublist (s.heard ws) := by
  obtain ⟨m, hm, hnothing, hhears⟩ := run_hearing hrun hstays hopen
  obtain ⟨ps, hheard, howes, -⟩ := hhears.packets
  rw [hnothing, List.nil_append] at hheard
  refine ⟨m, ps, hm, hheard, howes, fun after t ht ↦ ?_⟩
  obtain ⟨s', hleave, hafter⟩ := Option.bind_eq_some_iff.mp ht
  have htabled := step_tabled hhears.tabled hleave
  obtain ⟨x, hsame, hleft⟩ : ∃ x, s'.heard ws = s.heard ws ∧ s'.handlers ws = some ⟨x, false⟩ := by
    cases step_turn hleave with
    | @leave _ x hidle hwaits => exact ⟨x, rfl, by simp⟩
  exact hsame ▸ run_left htabled hleft hafter

def reciting (past : List Bytes) (opus : Bytes) : Option Bytes := some (past.flatten ++ opus)

def packet (opus : Bytes) : Bytes := Protocol.buildAudio opus 0 0 0

def tuned : List (Event ℕ) :=
  [.poll (some (ascii "A")) (packet [9]), .lookUp, .decode, .target, .broadcast ∅,
    .poll (some (ascii "B")) (packet [5]), .poll (some (ascii "A")) (packet [1]), .leave 1, .lookUp,
      .decode, .target]

def tuning : List (Event ℕ) := [.join 1 (lit "A"), .poll (some (ascii "A")) (packet [7])]

theorem listener_hears_tuned :
    ∃ s, run (step reciting) .init
        (tuning ++ .join 0 (lit "A") :: .lookUp :: .decode :: .target :: tuned) = some s ∧
      s.heard 0 = [[7], [7, 9], [7, 9, 1]] := by
  have hruns : (run (step reciting) .init (tuning ++
    .join 0 (lit "A") :: .lookUp :: .decode :: .target :: tuned)).map
      (fun s ↦ s.worker) = some .polling := by decide +kernel
  have hbegins : (run (step reciting) .init tuning).map
      (fun m : State ℕ ↦ (m.worker, m.given (lit "A"))) =
        some (.checked (lit "A") (packet [7]), []) := by decide +kernel
  obtain ⟨s, hs, hworker⟩ := Option.map_eq_some_iff.mp hruns
  obtain ⟨m, ps, hm, hheard, howes, -⟩ := listener_hears hs (by simp [tuned]) (by simp [tuned])
  obtain ⟨m', hm', hbegin⟩ := Option.map_eq_some_iff.mp hbegins
  obtain rfl := Option.some.inj (hm'.symm.trans hm)
  obtain ⟨hchecked, hgiven⟩ := Prod.mk.inj hbegin
  have hps : ps = [[7], [9], [1]] := by
    rw [hworker, hchecked] at howes
    exact (List.append_nil ps).symm.trans (howes.trans (by decide +kernel))
  refine ⟨s, hs, ?_⟩
  rw [hworker, hchecked, hgiven, hps] at hheard
  exact (List.append_nil _).symm.trans (hheard.trans (by decide))

end Hearing

section Whole

variable {decoder : List Bytes → Bytes → Option Bytes} {s : State ω} {ws : ω} {id : Str}
    {es : List (Event ω)}

def messages (es : List (Event ω)) : List Segmenter.Event :=
  es.filterMap fun
    | .poll key value => some (.message key value)
    | _ => none

omit [DecidableEq ω] in
theorem consumed_messages (id : Str) (es : List (Event ω)) :
    consumed id es = Segmenter.heard id (messages es) := by
  rw [heard_polled]
  induction es with
  | nil => rfl
  | cons e es ih =>
    have hcons : consumed id (e :: es) = consumed id [e] ++ consumed id es := by simp [consumed]
    rw [hcons, ih]
    cases e with
    | poll key value =>
      have hpolled : polled (messages (.poll key value :: es)) =
          (key, value) :: polled (messages es) := rfl
      have hfirst : consumed id [(.poll key value : Event ω)] =
          if names id (key, value) then (packetOf value).toList else [] :=
            List.flatMap_singleton _ _
      rw [hpolled, hfirst, List.filter_cons]
      split
      · rw [List.filterMap_cons]
        cases packetOf value <;> rfl
      · rfl
    | _ => rfl

theorem run_fresh (hrun : run (step decoder) .init es = some s) (hnone : messages es = []) :
    s.worker = .polling ∧ ∀ imei, s.decoders.get imei = none := by
  refine run_induction
    (I := fun es s ↦ messages es = [] → s.worker = .polling ∧ ∀ imei, s.decoders.get imei = none)
    (fun _ ↦ ⟨rfl, fun _ ↦ rfl⟩) ?_ (throughout_true es) hrun hnone
  intro es m e m' _ ih _ hstep hnone
  have hsplit : messages (es ++ [e]) = messages es ++ messages [e] := List.filterMap_append
  rw [hsplit, List.append_eq_nil_iff] at hnone
  obtain ⟨hworker, hdecoders⟩ := ih hnone.1
  cases step_turn hstep with
  | join | leave | broadcast | idle | error => exact ⟨hworker, hdecoders⟩
  | @free x hfreeing =>
    refine ⟨hworker, fun imei ↦ ?_⟩
    by_cases hx : imei = x
    · rw [hx, Dict.get_pop_self]
    · rw [Dict.get_pop_ne _ hx, hdecoders]
  | poll => cases hnone.2
  | lookUp hchecks => cases hworker.symm.trans hchecks
  | decode htunes => cases hworker.symm.trans htunes
  | target hholds => cases hworker.symm.trans hholds

variable {κ : Type} [DecidableEq κ] {part : Bytes → κ} {env : Server.Env}

/-- From the socket of a device to the socket of a listener. However ingest interleaves its
connections and however the broker spreads and hands over the audio that it took: whoever listens to
a device from before the first message to the end has been handed what one decoder makes of the
packets of that device, all of them and in order. -/
theorem listener_follows {maxConcurrent maxPerMinute : ℤ} {events : List Server.Event} {t : System}
    (hingest : run (System.step env) (.init maxConcurrent maxPerMinute) events = some t)
    (hid : Ascii id) {before during : List (Event ω)}
    (hrun : run (step decoder) .init (before ++ .join ws id :: during) = some s)
    (hbefore : messages before = []) (hfed : Fed part .audio t.ing.queue (messages during))
    (hstays : .leave ws ∉ during)
    (hopen : ∀ closed, .broadcast closed ∈ during → ws ∉ closed) (hdone : s.worker = .polling) :
    s.heard ws = airs decoder [] ((published id t.ing.queue).filterMap packetOf) := by
  obtain ⟨m, hm, hnothing, hhears⟩ := run_hearing hrun hstays hopen
  obtain ⟨hpolls, hdecoders⟩ := run_fresh hm hbefore
  have hgiven : m.given id = [] := by
    rw [given_eq_past (by simp [hpolls]), State.past, hdecoders, Option.getD_none]
  obtain ⟨ps, hheard, howes, -⟩ := hhears.packets
  have hholds : Worker.polling.holds decoder id = [] := rfl
  have hnone : Worker.polling.owes id = [] := rfl
  rw [hdone, hpolls, hholds, List.append_nil, List.append_nil, hnothing, List.nil_append,
    hgiven] at hheard
  rw [hdone, hpolls, hnone, List.append_nil, List.nil_append, consumed_messages,
    heard_published hfed (run_keys hingest) hid] at howes
  rw [hheard, howes]

def attending : List (Event ℕ) :=
  [.poll (some (ascii "unknown")) word, .idle, .poll (some (ascii "A")) word, .lookUp,
    .decode, .target, .poll (some (ascii "A")) reply, .lookUp, .decode, .target]

theorem listener_follows_overheard : ∃ t s,
    run (System.step (Env.calm .disabled)) (.init 64 120) overheard = some t ∧
      run (step reciting) .init ([] ++ .join 0 (lit "A") :: attending) = some s ∧
        s.heard 0 = airs reciting [] ((published (lit "A") t.ing.queue).filterMap packetOf) := by
  obtain ⟨t, ht, heq⟩ := overheard_runs
  have hruns : (run (step reciting) .init ([] ++ .join 0 (lit "A") :: attending)).map
      (fun s ↦ s.worker) = some .polling := by decide +kernel
  obtain ⟨s, hs, hdone⟩ := Option.map_eq_some_iff.mp hruns
  have haudio : (t.ing.queue.filter fun m ↦ m.topic = .audio).map (fun m ↦ (m.key, m.value.bytes)) =
      expected.audio :=
    congrArg Transcribed.audio heq
  have hreplay : replay .audio t.ing.queue = messages attending := by
    have hmap := congrArg (List.map fun p : Bytes × Bytes ↦
      Segmenter.Event.message (some p.1) p.2) haudio
    rw [List.map_map] at hmap
    exact hmap
  have hfed := fed_replay .audio t.ing.queue
  rw [hreplay] at hfed
  exact ⟨t, s, ht, hs,
    listener_follows ht (by decide) hs rfl hfed (by simp [attending]) (by simp [attending]) hdone⟩

end Whole

end OpusFleet.Server.Live
