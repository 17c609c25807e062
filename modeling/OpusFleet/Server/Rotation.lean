import OpusFleet.Library.Batches
import OpusFleet.Server.Segmenter

namespace OpusFleet.Server.Segmenter

open Python Library

variable {c : Env} {s s' : State}

section Flush

@[simp] theorem upload_segments (p : Put) : (s.upload c p).segments = s.segments := by
  rw [State.upload]
  split <;> rfl

@[simp] theorem upload_status (p : Put) : (s.upload c p).status = s.status := by
  rw [State.upload]
  split <;> rfl

@[simp] theorem upload_puts (p : Put) : (s.upload c p).puts = s.puts ++ [p] := by
  rw [State.upload]
  split <;> rfl

@[simp] theorem reset_status (imei : Str) : (s.reset c imei).status = s.status := rfl

@[simp] theorem reset_puts (imei : Str) : (s.reset c imei).puts = s.puts := rfl

theorem reset_get (imei imei' : Str) : (s.reset c imei).segments.get imei' =
    if imei' = imei then some (.fresh c imei (c.clock s.ticks)) else s.segments.get imei' :=
  Dict.get_set _ _ _ _

def Put.Built (p : Put) : Prop := p.seg.packets ≠ [] ∧ p.seg.buildOpus = .ok (p.data, p.duration)

theorem flush_cases (s : State) (seg : DeviceSegment) :
    (seg.packets = [] ∧ flush c s seg = (s, none)) ∨
    (∃ e, seg.packets ≠ [] ∧ seg.buildOpus = .error e ∧ flush c s seg = (s, some e)) ∨
    ∃ p : Put, p.seg = seg ∧ p.Built ∧
      flush c s seg = ((s.upload c p).reset c p.seg.imei, none) := by
  by_cases hne : seg.packets = []
  · exact .inl ⟨hne, by rw [flush, if_pos hne]⟩
  · cases hbuild : seg.buildOpus with
    | error e => exact .inr (.inl ⟨e, hne, rfl, by rw [flush, if_neg hne, hbuild]⟩)
    | ok r =>
      obtain ⟨data, duration⟩ := r
      exact .inr (.inr ⟨⟨seg, data, duration⟩, rfl, ⟨hne, hbuild⟩,
        by rw [flush, if_neg hne, hbuild]⟩)

/-- Segments that the table holds are uploaded and reset one after another. -/
inductive Flushes (c : Env) : State → List Put → State → Prop
  | nil (s : State) : Flushes c s [] s
  | cons {s s' : State} {p : Put} {ps : List Put} :
      s.segments.get p.seg.imei = some p.seg → p.Built →
      Flushes c ((s.upload c p).reset c p.seg.imei) ps s' → Flushes c s (p :: ps) s'

namespace Flushes

variable {ps : List Put}

theorem one {p : Put} (hget : s.segments.get p.seg.imei = some p.seg) (hbuilt : p.Built) :
    Flushes c s [p] ((s.upload c p).reset c p.seg.imei) := .cons hget hbuilt (.nil _)

theorem trans {s'' : State} {ps' : List Put} (h : Flushes c s ps s') (h' : Flushes c s' ps' s'') :
    Flushes c s (ps ++ ps') s'' := by
  induction h with
  | nil s => exact h'
  | cons hget hbuilt _ ih => exact .cons hget hbuilt (ih h')

theorem puts (h : Flushes c s ps s') : s'.puts = s.puts ++ ps := by
  induction h with
  | nil s => rw [List.append_nil]
  | cons _ _ _ ih => rw [ih, reset_puts, upload_puts, List.append_assoc, List.singleton_append]

theorem status (h : Flushes c s ps s') : s'.status = s.status := by
  induction h with
  | nil s => rfl
  | cons _ _ _ ih => rw [ih, reset_status, upload_status]

theorem built (h : Flushes c s ps s') : ∀ p ∈ ps, p.Built := by
  induction h with
  | nil s => simp
  | cons _ hbuilt _ ih => exact List.forall_mem_cons.mpr ⟨hbuilt, ih⟩

theorem get {imei : Str} {seg : DeviceSegment} (h : Flushes c s ps s')
    (hget : s'.segments.get imei = some seg) :
    s.segments.get imei = some seg ∨ ∃ n, seg = .fresh c imei (c.clock n) := by
  induction h with
  | nil s => exact .inl hget
  | @cons s s' p ps _ _ _ ih =>
    rcases ih hget with hget | hfresh
    · rw [reset_get] at hget
      split at hget
      · next himei =>
        obtain rfl := Option.some.inj hget
        exact .inr ⟨_, by rw [himei]⟩
      · rw [upload_segments] at hget
        exact .inl hget
    · exact .inr hfresh

theorem mem (h : Flushes c s ps s') : ∀ p ∈ ps, s.segments.get p.seg.imei = some p.seg := by
  induction h with
  | nil s => simp
  | @cons s s' p ps hget hbuilt hrest ih =>
    refine List.forall_mem_cons.mpr ⟨hget, fun q hq ↦ ?_⟩
    have hq' := ih q hq
    rw [reset_get] at hq'
    split at hq'
    · next himei =>
      have hnil : q.seg.packets = [] := by
        rw [← Option.some.inj hq']
        rfl
      exact absurd hnil (hrest.built q hq).1
    · rwa [upload_segments] at hq'

theorem distinct (h : Flushes c s ps s') : ps.Pairwise fun p q ↦ p.seg.imei ≠ q.seg.imei := by
  induction h with
  | nil s => exact .nil
  | @cons s s' p ps _ _ hrest ih =>
    refine List.pairwise_cons.mpr ⟨fun q hq himei ↦ ?_, ih⟩
    have hget := hrest.mem q hq
    rw [reset_get, if_pos himei.symm] at hget
    apply (hrest.built q hq).1
    rw [← Option.some.inj hget]
    rfl

theorem fate {imei : Str} {seg : DeviceSegment} (h : Flushes c s ps s')
    (hget : s.segments.get imei = some seg) :
    s'.segments.get imei = some seg ∧ (∀ p ∈ ps, p.seg.imei ≠ imei) ∨
      (∃ p ∈ ps, p.seg = seg) ∧ ∃ n, s'.segments.get imei = some (.fresh c imei (c.clock n)) := by
  induction h generalizing seg with
  | nil s => exact .inl ⟨hget, by simp⟩
  | @cons s s' p ps hp _ _ ih =>
    by_cases himei : imei = p.seg.imei
    · subst himei
      refine .inr ⟨⟨p, by simp, Option.some.inj (hp.symm.trans hget)⟩, ?_⟩
      rcases ih (by rw [reset_get, if_pos rfl]) with ⟨hget', -⟩ | ⟨-, hfresh⟩
      · exact ⟨_, hget'⟩
      · exact hfresh
    · rcases ih (by rwa [reset_get, if_neg himei, upload_segments]) with
        ⟨hget', hother⟩ | ⟨⟨q, hq, hseg⟩, hfresh⟩
      · exact .inl ⟨hget', List.forall_mem_cons.mpr ⟨Ne.symm himei, hother⟩⟩
      · exact .inr ⟨⟨q, by simp [hq], hseg⟩, hfresh⟩

end Flushes

def Keyed (s : State) : Prop := ∀ imei seg, s.segments.get imei = some seg → seg.imei = imei

theorem Flushes.keyed {ps : List Put} (h : Flushes c s ps s') (hs : Keyed s) : Keyed s' := by
  intro imei seg hget
  rcases h.get hget with hget | ⟨n, rfl⟩
  · exact hs imei seg hget
  · rfl

theorem flushEach_cons (close : DeviceSegment → Bool) (imei : Str) (imeis : List Str) (s : State) :
    ((∀ seg, s.segments.get imei = some seg → close seg → seg.packets = []) ∧
      flushEach c close (imei :: imeis) s = flushEach c close imeis s) ∨
    (∃ seg e, s.segments.get imei = some seg ∧ close seg ∧ seg.packets ≠ [] ∧
      seg.buildOpus = .error e ∧
      flushEach c close (imei :: imeis) s = (s, some e)) ∨
    ∃ p : Put, s.segments.get imei = some p.seg ∧ close p.seg ∧ p.Built ∧
      flushEach c close (imei :: imeis) s =
        flushEach c close imeis ((s.upload c p).reset c p.seg.imei) := by
  rw [flushEach]
  cases hget : s.segments.get imei with
  | none => exact .inl ⟨fun _ h ↦ (by cases h), rfl⟩
  | some seg =>
    simp only [Option.some.injEq, forall_eq', exists_and_left, exists_eq_left']
    cases hclose : close seg with
    | false => exact .inl ⟨fun h ↦ (by cases h), rfl⟩
    | true =>
      obtain ⟨hnil, hflush⟩ | ⟨e, hne, herror, hflush⟩ | ⟨p, rfl, hbuilt, hflush⟩ :=
        flush_cases (c := c) s seg
      · exact .inl ⟨fun _ ↦ hnil, by rw [hflush]; rfl⟩
      · exact .inr (.inl ⟨rfl, hne, e, herror, by rw [hflush]; rfl⟩)
      · exact .inr (.inr ⟨p, rfl, hclose, hbuilt, by rw [hflush]; rfl⟩)

/-- A loop over the table: what it uploads, that it leaves nothing out, and why it can fail. -/
theorem flushEach_spec {close : DeviceSegment → Bool} {imeis : List Str} {o : Option Exc}
    (hkeyed : Keyed s) (hnodup : imeis.Nodup) (h : flushEach c close imeis s = (s', o)) :
    ∃ ps, Flushes c s ps s' ∧ (∀ p ∈ ps, close p.seg) ∧
      (o = none → ∀ imei ∈ imeis, ∀ seg, s.segments.get imei = some seg → close seg →
        seg.packets ≠ [] → ∃ p ∈ ps, p.seg = seg) ∧
      ∀ e, o = some e → ∃ imei ∈ imeis, ∃ seg, s.segments.get imei = some seg ∧ close seg ∧
        seg.packets ≠ [] ∧ seg.buildOpus = .error e := by
  induction imeis generalizing s with
  | nil =>
    obtain ⟨rfl, rfl⟩ : s = s' ∧ none = o := by simpa [flushEach] using h
    exact ⟨[], .nil s, by simp, by simp, by simp⟩
  | cons imei imeis ih =>
    obtain ⟨hfirst, hnodup⟩ := List.nodup_cons.mp hnodup
    obtain ⟨hidle, hrest⟩ | ⟨seg, e, hget, hcl, hne, herror, hfails⟩ | ⟨p, hget, hcl,
        hbuilt, hrest⟩ :=
      flushEach_cons (c := c) close imei imeis s
    · obtain ⟨ps, hps, hclose, hall, hfail⟩ := ih hkeyed hnodup (hrest.symm.trans h)
      refine ⟨ps, hps, hclose, fun ho imei' hmem seg hget hcl hne ↦ ?_, fun e he ↦ ?_⟩
      · rcases List.mem_cons.mp hmem with rfl | hmem
        · exact absurd (hidle seg hget hcl) hne
        · exact hall ho imei' hmem seg hget hcl hne
      · obtain ⟨imei', hmem, hseg⟩ := hfail e he
        exact ⟨imei', List.mem_cons_of_mem _ hmem, hseg⟩
    · obtain ⟨rfl, rfl⟩ : s = s' ∧ some e = o := by simpa [hfails] using h
      refine ⟨[], .nil s, by simp, by simp, fun e' he' ↦ ?_⟩
      obtain rfl := Option.some.inj he'
      exact ⟨imei, by simp, seg, hget, hcl, hne, herror⟩
    · have himei : p.seg.imei = imei := hkeyed imei _ hget
      have hone := Flushes.one (c := c) (himei ▸ hget) hbuilt
      have hother {imei' : Str} (hmem : imei' ∈ imeis) :
          ((s.upload c p).reset c p.seg.imei).segments.get imei' = s.segments.get imei' := by
        rw [reset_get, upload_segments, if_neg]
        rintro rfl
        exact hfirst (himei ▸ hmem)
      obtain ⟨ps, hps, hclose, hall, hfail⟩ := ih (hone.keyed hkeyed) hnodup (hrest.symm.trans h)
      refine ⟨p :: ps, hone.trans hps, List.forall_mem_cons.mpr ⟨hcl, hclose⟩,
        fun ho imei' hmem seg hseg hcl hne ↦ ?_, fun e he ↦ ?_⟩
      · rcases List.mem_cons.mp hmem with rfl | hmem
        · exact ⟨p, by simp, Option.some.inj (hget.symm.trans hseg)⟩
        · obtain ⟨q, hq, hqseg⟩ := hall ho imei' hmem seg (by rwa [hother hmem]) hcl hne
          exact ⟨q, by simp [hq], hqseg⟩
      · obtain ⟨imei', hmem, seg, hseg, hrest⟩ := hfail e he
        rw [hother hmem] at hseg
        exact ⟨imei', by simp [hmem], seg, hseg, hrest⟩

end Flush

section Round

/-- The device and the Opus packet of a message that has both. -/
def opusOf : Event → Option (Str × Bytes)
  | .message key value =>
    match keyText key, Protocol.parseAudio value with
    | .ok imei, .ok audio => some (imei, audio.opus)
    | _, _ => none
  | _ => none

theorem opusOf_message {e : Event} {x : Str × Bytes} (h : opusOf e = some x) :
    ∃ key value, e = .message key value := by
  cases e with
  | message key value => exact ⟨key, value, rfl⟩
  | idle | error | interrupt => cases h

def State.held (c : Env) (s : State) (imei : Str) : DeviceSegment := (s.segment c imei).2

def State.hear (c : Env) (s : State) (imei : Str) (opus : Bytes) : State :=
  { (s.segment c imei).1 with
    segments := (s.segment c imei).1.segments.set imei ((s.held c imei).add opus) }

/-- The state after the event's packet, before any upload. -/
def State.take (c : Env) (s : State) (e : Event) : State :=
  match opusOf e with
  | some (imei, opus) => s.tick.hear c imei opus
  | none => if e = .idle then s.tick.tick else s.tick

theorem hear_get (imei imei' : Str) (opus : Bytes) : (s.hear c imei opus).segments.get imei' =
    if imei' = imei then some ((s.held c imei).add opus) else s.segments.get imei' := by
  rw [State.hear, Dict.get_set]
  split
  · rfl
  · next h =>
    rw [State.segment]
    split
    · rfl
    · exact Dict.get_set_ne _ _ h

theorem hear_puts (imei : Str) (opus : Bytes) : (s.hear c imei opus).puts = s.puts := by
  rw [State.hear, State.segment]
  split <;> rfl

theorem hear_status (imei : Str) (opus : Bytes) : (s.hear c imei opus).status = s.status := by
  rw [State.hear, State.segment]
  split <;> rfl

theorem held_cases (s : State) (imei : Str) :
    s.segments.get imei = some (s.held c imei) ∨
      s.segments.get imei = none ∧ s.held c imei = .fresh c imei (c.clock s.ticks) := by
  rw [State.held, State.segment]
  cases s.segments.get imei with
  | none => exact .inr ⟨rfl, rfl⟩
  | some seg => exact .inl rfl

theorem take_get {e : Event} {imei : Str} {seg : DeviceSegment}
    (hget : (s.take c e).segments.get imei = some seg) :
    s.segments.get imei = some seg ∨
      ∃ opus, opusOf e = some (imei, opus) ∧ seg = (s.tick.held c imei).add opus := by
  rw [State.take] at hget
  split at hget
  · next imei' opus hopus =>
    rw [hear_get] at hget
    split at hget
    · next himei =>
      subst himei
      exact .inr ⟨opus, hopus, (Option.some.inj hget).symm⟩
    · exact .inl hget
  · split at hget <;> exact .inl hget

theorem held_imei (hs : Keyed s) (imei : Str) : (s.held c imei).imei = imei := by
  rcases held_cases (c := c) s imei with hget | ⟨-, hheld⟩
  · exact hs imei _ hget
  · rw [hheld]
    rfl

theorem take_keyed (hs : Keyed s) (e : Event) : Keyed (s.take c e) := by
  intro imei seg hget
  rcases take_get hget with hget | ⟨opus, -, rfl⟩
  · exact hs imei seg hget
  · exact held_imei (s := s.tick) hs imei

theorem take_status (e : Event) : (s.take c e).status = s.status := by
  rw [State.take]
  split
  · exact hear_status _ _
  · split <;> rfl

theorem take_puts (e : Event) : (s.take c e).puts = s.puts := by
  rw [State.take]
  split
  · exact hear_puts _ _
  · split <;> rfl

def Breaks (s : State) (x : Exc) : Prop :=
  ∃ imei seg, s.segments.get imei = some seg ∧ seg.packets ≠ [] ∧ seg.buildOpus = .error x

def Covers (s : State) (ps : List Put) : Prop :=
  ∀ imei seg, s.segments.get imei = some seg → seg.packets ≠ [] → ∃ p ∈ ps, p.seg = seg

/-- The segments that the event closes: the one its packet fills,
those gone quiet, all at the stop. -/
def Ripe (c : Env) (s : State) (e : Event) (seg : DeviceSegment) : Prop :=
  match e with
  | .message _ _ => ∃ imei opus, opusOf e = some (imei, opus) ∧
      seg = (s.tick.held c imei).add opus ∧ seg.full c
  | .idle => s.segments.get seg.imei = some seg ∧ seg.packets ≠ [] ∧
      seg.overdue c (c.clock (s.ticks + 1))
  | .error => False
  | .interrupt => s.segments.get seg.imei = some seg ∧ seg.packets ≠ []

/-- The loop cannot take the event: its key is no text, or a segment
that it closes cannot be built. -/
def Crashes (c : Env) (s : State) (e : Event) (x : Exc) : Prop :=
  (∃ key value, e = .message key value ∧ keyText key = .error x) ∨
    ∃ seg, Ripe c s e seg ∧ seg.buildOpus = .error x

theorem Ripe.pending {e : Event} {seg : DeviceSegment} (hkeyed : Keyed s) (h : Ripe c s e seg) :
    (s.take c e).segments.get seg.imei = some seg ∧ seg.packets ≠ [] := by
  cases e with
  | message key value =>
    obtain ⟨imei, opus, hopus, rfl, -⟩ := h
    have himei : ((s.tick.held c imei).add opus).imei = imei := held_imei (s := s.tick) hkeyed imei
    refine ⟨?_, by simp [DeviceSegment.add]⟩
    rw [himei, State.take, hopus, hear_get, if_pos rfl]
  | idle => exact ⟨h.1, h.2.1⟩
  | error => exact h.elim
  | interrupt => exact h

theorem Crashes.cause {e : Event} {x : Exc} (hkeyed : Keyed s) (h : Crashes c s e x) :
    (∃ key value, e = .message key value ∧ keyText key = .error x) ∨ Breaks (s.take c e) x := by
  refine h.imp_right ?_
  rintro ⟨seg, hripe, herror⟩
  obtain ⟨hget, hne⟩ := hripe.pending hkeyed
  exact ⟨seg.imei, seg, hget, hne, herror⟩

/-- What a round does: the event's packet is taken, the puts `ps` are
made, and the loop goes on or not. -/
structure Round (c : Env) (s : State) (e : Event) (ps : List Put) (s' : State) : Prop where
  running : s.status = .running
  flushes : Flushes c (s.take c e) ps { s' with status := .running }
  ripe : s'.status = .running → ∀ seg, (∃ p ∈ ps, p.seg = seg) ↔ Ripe c s e seg
  raises : ∀ x, s'.status = .raised x →
    (∃ key value, e = .message key value ∧ keyText key = .error x) ∨ Breaks (s.take c e) x
  covers : s'.status ≠ .running →
    (∃ x, s'.status = .raised x ∧ Breaks (s.take c e) x) ∨ Covers (s.take c e) ps
  halts : s'.status ≠ .running ↔ e = .interrupt ∨ ∃ x, Crashes c s e x
  stops : s'.status = .stopped → e = .interrupt

theorem shutdown_spec (hkeyed : Keyed s) (hrunning : s.status = .running) (exc : Option Exc) :
    ∃ ps, Flushes c s ps { shutdown c s exc with status := .running } ∧
      ((shutdown c s exc).status = .ofExc exc ∧
        Covers s ps ∨
      ∃ x, (shutdown c s exc).status = .raised x ∧ Breaks s x) := by
  cases heach : flushEach c (fun _ ↦ true) s.segments.keys s with
  | mk t o =>
    obtain ⟨ps, hps, -, hall, hfail⟩ := flushEach_spec hkeyed s.segments.nodup heach
    have hstatus : t.status = .running := hps.status.trans hrunning
    have hsame (st : Status) : { { t with status := st } with status := Status.running } = t := by
      rw [← hstatus]
    have hshutdown : shutdown c s exc = { t with status := .ofExc (o.or exc) } := by
      simp only [shutdown, heach]
    rw [hshutdown]
    refine ⟨ps, by rwa [hsame], ?_⟩
    cases o with
    | none =>
      refine .inl ⟨rfl, fun imei seg hget hne ↦ ?_⟩
      have hmem : imei ∈ s.segments.keys := (Dict.mem_keys _ _).mpr (by rw [hget]; rfl)
      exact hall rfl imei hmem seg hget rfl hne
    | some e =>
      obtain ⟨imei, -, seg, hget, -, hseg⟩ := hfail e rfl
      exact .inr ⟨e, rfl, imei, seg, hget, hseg⟩

theorem Flushes.breaks {ps : List Put} {x : Exc} (h : Flushes c s ps s') (hx : Breaks s' x) :
    Breaks s x := by
  obtain ⟨imei, seg, hget, hne, herror⟩ := hx
  rcases h.get hget with hget | ⟨n, rfl⟩
  · exact ⟨imei, seg, hget, hne, herror⟩
  · exact absurd rfl hne

theorem Flushes.covers {ps ps' : List Put} (h : Flushes c s ps s') (hs' : Covers s' ps') :
    Covers s (ps ++ ps') := by
  intro imei seg hget hne
  rcases h.fate hget with ⟨hget', -⟩ | ⟨⟨p, hp, hseg⟩, -⟩
  · obtain ⟨p, hp, hseg⟩ := hs' imei seg hget' hne
    exact ⟨p, List.mem_append_right _ hp, hseg⟩
  · exact ⟨p, List.mem_append_left _ hp, hseg⟩

theorem Round.of_raise {e : Event} {m : State} {ps : List Put} {x : Exc}
    (hrunning : s.status = .running)
    (hkeyed : Keyed s) (hps : Flushes c (s.take c e) ps m) (hcrash : Crashes c s e x) :
    ∃ ps, Round c s e ps (shutdown c m (some x)) := by
  have hm : m.status = .running := by rw [hps.status, take_status, hrunning]
  obtain ⟨ps', hps', hshutdown⟩ := shutdown_spec (hps.keyed (take_keyed hkeyed e)) hm (some x)
  obtain ⟨y, hstatus, hy, hcovers⟩ : ∃ y, (shutdown c m (some x)).status = .raised y ∧
      (y = x ∨ Breaks (s.take c e) y) ∧
      (Breaks (s.take c e) y ∨ Covers (s.take c e) (ps ++ ps')) := by
    obtain ⟨hstatus, hcovers⟩ | ⟨y, hstatus, hbreaks⟩ := hshutdown
    · exact ⟨x, hstatus, .inl rfl, .inr (hps.covers hcovers)⟩
    · exact ⟨y, hstatus, .inr (hps.breaks hbreaks), .inl (hps.breaks hbreaks)⟩
  have hnot : (shutdown c m (some x)).status ≠ .running := by
    rw [hstatus]
    exact Status.noConfusion
  refine ⟨ps ++ ps', hrunning, hps.trans hps', fun h ↦ absurd h hnot, fun z hz ↦ ?_, fun _ ↦ ?_,
    iff_of_true hnot (.inr ⟨x, hcrash⟩), fun h ↦ ?_⟩
  · obtain rfl : y = z := Status.raised.inj (hstatus.symm.trans hz)
    rcases hy with rfl | hy
    · exact hcrash.cause hkeyed
    · exact .inr hy
  · rcases hcovers with hbreaks | hcovers
    · exact .inl ⟨y, hstatus, hbreaks⟩
    · exact .inr hcovers
  · rw [hstatus] at h
    cases h

theorem Round.of_none {e : Event} {m : State} {ps : List Put} (hrunning : s.status = .running)
    (hps : Flushes c (s.take c e) ps m) (hripe : ∀ seg, (∃ p ∈ ps, p.seg = seg) ↔ Ripe c s e seg)
    (hkey : ∀ key value, e = .message key value → ∃ imei, keyText key = .ok imei)
    (hgoes : e ≠ .interrupt) :
    Round c s e ps m := by
  have hm : m.status = .running := by rw [hps.status, take_status, hrunning]
  have hsame : { m with status := .running } = m := by rw [← hm]
  have hsound (x : Exc) : ¬Crashes c s e x := by
    rintro (⟨key, value, he, hx⟩ | ⟨seg, hseg, hx⟩)
    · obtain ⟨imei, himei⟩ := hkey key value he
      rw [himei] at hx
      cases hx
    · obtain ⟨p, hp, rfl⟩ := (hripe seg).mpr hseg
      rw [(hps.built p hp).2] at hx
      cases hx
  refine ⟨hrunning, by rwa [hsame], fun _ ↦ hripe, fun x hx ↦ ?_, fun h ↦ absurd hm h,
    iff_of_false (not_not.mpr hm) ?_, fun hx ↦ ?_⟩
  · rw [hm] at hx
    cases hx
  · rintro (h | ⟨x, hx⟩)
    · exact hgoes h
    · exact hsound x hx
  · rw [hm] at hx
    cases hx

theorem Round.ends {e : Event} {ps : List Put} (h : Round c s e ps s') (he : e = .interrupt) :
    s'.status ≠ .running := h.halts.mpr (.inl he)

theorem consume_ok {key : Option Bytes} {value : Bytes} {imei : Str} {audio : Protocol.Audio}
    (hkey : keyText key = .ok imei) (hparse : Protocol.parseAudio value = .ok audio) :
    consume c s key value =
      if ((s.held c imei).add audio.opus).full c then
        flush c (s.hear c imei audio.opus) ((s.held c imei).add audio.opus)
      else (s.hear c imei audio.opus, none) := by
  rw [consume, hkey, hparse]
  rfl

theorem parseAudio_error {value : Bytes} {e : Exc} (h : Protocol.parseAudio value = .error e) :
    ∃ text, e = .protocol text := by
  rw [Protocol.parseAudio] at h
  split at h
  · exact ⟨_, (Except.error.inj h).symm⟩
  · cases h

theorem Round.of_flush {e : Event} {seg : DeviceSegment} (hrunning : s.status = .running)
    (hkeyed : Keyed s) (hripe : ∀ seg', Ripe c s e seg' ↔ seg' = seg)
    (hkey : ∀ key value, e = .message key value → ∃ imei, keyText key = .ok imei)
    (hgoes : e ≠ .interrupt) :
    ∃ ps, Round c s e ps (conclude c (flush c (s.take c e) seg)) := by
  have hclosed : Ripe c s e seg := (hripe seg).mpr rfl
  obtain ⟨hget, hne⟩ := hclosed.pending hkeyed
  obtain ⟨hnil, -⟩ | ⟨x, -, herror, hflush⟩ | ⟨p, rfl, hbuilt, hflush⟩ :=
    flush_cases (c := c) (s.take c e) seg
  · exact absurd hnil hne
  · rw [hflush]
    exact Round.of_raise hrunning hkeyed (.nil _) (.inr ⟨seg, hclosed, herror⟩)
  · rw [hflush]
    refine ⟨[p], .of_none hrunning (.one hget hbuilt) (fun seg' ↦ ?_) hkey hgoes⟩
    simp [hripe, eq_comm]

theorem consume_round (hkeyed : Keyed s) (hrunning : s.status = .running) (key : Option Bytes)
    (value : Bytes) (hstep : step c s (.message key value) = some s') :
    ∃ ps, Round c s (.message key value) ps s' := by
  rw [step, if_pos hrunning, if_neg (by simp)] at hstep
  cases hkey : keyText key with
  | error x =>
    have htake : s.take c (.message key value) = s.tick := by
      simp [State.take, opusOf, hkey]
    simp only [turn, consume, hkey] at hstep
    obtain rfl := Option.some.inj hstep
    exact Round.of_raise hrunning hkeyed (by rw [htake]; exact .nil _)
      (.inl ⟨key, value, rfl, hkey⟩)
  | ok imei =>
    have hname : ∀ key' value', Event.message key value = .message key' value' →
        ∃ imei, keyText key' = .ok imei := by
      rintro _ _ ⟨⟩
      exact ⟨imei, hkey⟩
    cases hparse : Protocol.parseAudio value with
    | error x =>
      have hopus : opusOf (.message key value) = none := by simp only [opusOf, hkey, hparse]
      have htake : s.take c (.message key value) = s.tick := by simp [State.take, hopus]
      obtain ⟨text, rfl⟩ := parseAudio_error hparse
      simp only [turn, consume, hkey, hparse] at hstep
      obtain rfl := Option.some.inj hstep
      refine ⟨[], .of_none hrunning (by rw [htake]; exact .nil _) (fun seg ↦ ?_) hname (by simp)⟩
      simp [Ripe, hopus]
    | ok audio =>
      have hopus : opusOf (.message key value) = some (imei, audio.opus) := by
        simp only [opusOf, hkey, hparse]
      have htake : s.take c (.message key value) = s.tick.hear c imei audio.opus := by
        rw [State.take, hopus]
      have hripe (seg : DeviceSegment) : Ripe c s (.message key value) seg ↔
          seg = (s.tick.held c imei).add audio.opus ∧ seg.full c := by
        simp [Ripe, hopus]
      simp only [turn, consume_ok hkey hparse] at hstep
      cases hfull : ((s.tick.held c imei).add audio.opus).full c with
      | false =>
        simp only [hfull, Bool.false_eq_true, if_false] at hstep
        obtain rfl := Option.some.inj hstep
        refine ⟨[], .of_none hrunning (by rw [htake]; exact .nil _) (fun seg ↦ ?_) hname (by simp)⟩
        rw [hripe]
        simp +contextual [hfull]
      | true =>
        simp only [hfull, if_true, ← htake] at hstep
        obtain rfl := Option.some.inj hstep
        refine Round.of_flush hrunning hkeyed (fun seg ↦ (hripe seg).trans ?_) hname (by simp)
        exact and_iff_left_of_imp fun h ↦ h ▸ hfull

theorem interrupt_round (hkeyed : Keyed s) (hrunning : s.status = .running) :
    ∃ ps, Round c s .interrupt ps (shutdown c s.tick none) := by
  obtain ⟨ps, hps, hstatus⟩ := shutdown_spec (c := c) (s := s.tick) hkeyed hrunning none
  have hnot : (shutdown c s.tick none).status ≠ .running := by
    obtain ⟨hstopped, -⟩ | ⟨y, hraised, -⟩ := hstatus
    · rw [hstopped]
      exact Status.noConfusion
    · rw [hraised]
      exact Status.noConfusion
  refine ⟨ps, hrunning, hps, fun h ↦ absurd h hnot, fun x hx ↦ ?_, fun _ ↦ ?_,
    iff_of_true hnot (.inl rfl), fun _ ↦ rfl⟩
  · obtain ⟨hstopped, -⟩ | ⟨y, hraised, hbreaks⟩ := hstatus
    · rw [hstopped] at hx
      cases hx
    · rw [hraised] at hx
      cases hx
      exact .inr hbreaks
  · obtain ⟨-, hcovers⟩ | hraised := hstatus
    · exact .inr hcovers
    · exact .inl hraised

theorem idle_round (hkeyed : Keyed s) (hrunning : s.status = .running)
    (hstep : step c s .idle = some s') :
    ∃ ps, Round c s .idle ps s' := by
  rw [step, if_pos hrunning, if_neg (by simp)] at hstep
  cases heach : turn c s.tick .idle with
  | mk m o =>
    obtain ⟨ps, hps, hclose, hall, hfail⟩ :=
      flushEach_spec (s := s.tick.tick) hkeyed s.segments.nodup heach
    have hquiet {seg : DeviceSegment} (hget : s.segments.get seg.imei = some seg) :
        Ripe c s .idle seg ↔ seg.packets ≠ [] ∧ seg.overdue c (c.clock s.tick.ticks) := by
      simp [Ripe, hget, State.tick]
    simp only [heach] at hstep
    cases o with
    | none =>
      obtain rfl := Option.some.inj hstep
      refine ⟨ps, .of_none hrunning hps (fun seg ↦ ⟨?_, fun h ↦ ?_⟩) (by simp) (by simp)⟩
      · rintro ⟨p, hp, rfl⟩
        have hget : s.segments.get p.seg.imei = some p.seg := hps.mem p hp
        exact (hquiet hget).mpr (of_decide_eq_true (hclose p hp))
      · have hmem : seg.imei ∈ s.segments.keys := (Dict.mem_keys _ _).mpr (by rw [h.1]; rfl)
        exact hall rfl seg.imei hmem seg h.1 (decide_eq_true ((hquiet h.1).mp h)) h.2.1
    | some x =>
      obtain rfl := Option.some.inj hstep
      obtain ⟨imei, -, seg, hget, hcl, hne, herror⟩ := hfail x rfl
      obtain rfl : seg.imei = imei := hkeyed imei seg hget
      exact Round.of_raise hrunning hkeyed hps
        (.inr ⟨seg, (hquiet hget).mpr (of_decide_eq_true hcl), herror⟩)

theorem step_round {e : Event} (hkeyed : Keyed s) (hstep : step c s e = some s') :
    ∃ ps, Round c s e ps s' := by
  have hrunning : s.status = .running := by
    by_contra h
    rw [step, if_neg h] at hstep
    cases hstep
  cases e with
  | message key value => exact consume_round hkeyed hrunning key value hstep
  | error =>
    rw [step, if_pos hrunning, if_neg (by simp)] at hstep
    obtain rfl : s.tick = s' := by simpa [turn] using hstep
    exact ⟨[], .of_none hrunning (.nil _) (by simp [Ripe]) (by simp) (by simp)⟩
  | interrupt =>
    rw [step, if_pos hrunning, if_pos rfl] at hstep
    obtain rfl := Option.some.inj hstep
    exact interrupt_round hkeyed hrunning
  | idle => exact idle_round hkeyed hrunning hstep

end Round

end OpusFleet.Server.Segmenter
