import Mathlib.Algebra.BigOperators.Group.List.Basic
import Mathlib.Algebra.Group.Prod
import OpusFleet.Server.Sessions
import OpusFleet.Server.Sink

namespace OpusFleet.Server

open Python Library Protocol Auth Library.Incremental

abbrev Tally := ℕ × ℕ × ℕ

section Frames

variable (limit : ℕ)

def classified (payload : Bytes) : Bool :=
  match classify limit payload with
  | .ok _ => true
  | .error _ => false

def isAuth (payload : Bytes) : Bool :=
  match classify limit payload with
  | .ok (.auth _ _) => true
  | _ => false

def isAudio (payload : Bytes) : Bool :=
  match classify limit payload with
  | .ok (.audio _) => true
  | _ => false

def isStat (payload : Bytes) : Bool :=
  match classify limit payload with
  | .ok (.stat _) => true
  | _ => false

def named (imei : Str) (payload : Bytes) : Str :=
  match classify limit payload with
  | .ok (.hello id) => id
  | _ => imei

/-- The frames of a socket that come while its id is `id`. -/
def filedUnder (id : Str) : Str → List Bytes → List Bytes
  | _, [] => []
  | imei, f :: fs =>
    if named limit imei f = id then f :: filedUnder id (named limit imei f) fs
    else filedUnder id (named limit imei f) fs

def sizes (p : Bytes → Bool) (frames : List Bytes) : List ℕ := (frames.filter p).map List.length

/-- The frames that the receiver gets through: those before the first one that is rejected. -/
def understood (frames : List Bytes) : List Bytes := frames.takeWhile (classified limit)

/-- The frames after those that ingest goes on to. -/
def beyond (frames : List Bytes) : List Bytes :=
  (frames.drop (understood limit frames).length).takeWhile (! raises limit ·)

/-- Every STAT frame the receiver gets to is an object, ingest gets no STAT frame
after the first rejected frame, and under each id the AUTH frames before it weigh as
much as the audio frames after. -/
structure Balanced (frames : List Bytes) : Prop where
  objects : ∀ f ∈ understood limit frames, raises limit f = false
  reports : ∀ f ∈ beyond limit frames, isStat limit f = false
  audio : ∀ id,
    let auths :=
      sizes (isAuth limit) (filedUnder limit id (lit "unknown") (understood limit frames))
    let later := sizes (isAudio limit) (filedUnder limit id
      ((understood limit frames).foldl (named limit) (lit "unknown")) (beyond limit frames))
    auths.length = later.length ∧ auths.sum = later.sum

end Frames

section Calls

def audioUnder (id : Str) (calls : List Call) : List Bytes :=
  calls.filterMap fun c ↦
    match c.topic, c.value with
    | .audio, .raw payload => if c.key = id then some payload else none
    | _, _ => none

def statsUnder (id : Str) (calls : List Call) : List Call :=
  calls.filter fun c ↦ c.topic = .stat ∧ c.key = id

/-- The receiver's numbers for a device are those of the messages under its id. -/
structure Agrees (d : DeviceStats) (id : Str) (calls : List Call) : Prop where
  frames : d.frames = (audioUnder id calls).length
  bytes : d.bytes = ((audioUnder id calls).map List.length).sum
  statsRx : d.statsRx = (statsUnder id calls).length

def DeviceStats.tally (d : DeviceStats) : Tally := (d.frames, d.bytes, d.statsRx)

def callsTally (id : Str) (calls : List Call) : Tally :=
  ((audioUnder id calls).length, ((audioUnder id calls).map List.length).sum,
    (statsUnder id calls).length)

theorem agrees_iff (d : DeviceStats) (id : Str) (calls : List Call) :
    Agrees d id calls ↔ d.tally = callsTally id calls := by
  simp only [DeviceStats.tally, callsTally, Prod.mk.injEq]
  exact ⟨fun h ↦ ⟨h.frames, h.bytes, h.statsRx⟩, fun ⟨hf, hb, hs⟩ ↦ ⟨hf, hb, hs⟩⟩

theorem callsTally_append (id : Str) (xs ys : List Call) :
    callsTally id (xs ++ ys) = callsTally id xs + callsTally id ys := by
  simp [callsTally, audioUnder, statsUnder]

theorem callsTally_timeless (id : Str) (calls : List Call) :
    callsTally id (calls.map Call.timeless) = callsTally id calls := by
  induction calls with
  | nil => rfl
  | cons c calls ih =>
    rw [List.map_cons, ← List.singleton_append, ← List.singleton_append (l := calls),
      callsTally_append, callsTally_append, ih]
    congr 1
    have hvalue : audioUnder id [c.timeless] = audioUnder id [c] := by
      rcases c with ⟨topic, key, payload | value⟩
      · rfl
      · cases topic <;> cases value <;> rfl
    have hstat : (statsUnder id [c.timeless]).length = (statsUnder id [c]).length := by
      by_cases h : c.topic = .stat ∧ c.key = id
      · simp [statsUnder, Call.timeless, h]
      · simp [statsUnder, Call.timeless, h]
    rw [callsTally, callsTally, hvalue, hstat]

end Calls

section Tallies

variable (limit : ℕ)

def gain (payload : Bytes) : Tally :=
  match classify limit payload with
  | .ok (.hello _) => 0
  | .ok (.stat _) => (0, 0, 1)
  | .ok (.auth _ _) | .ok (.audio _) => (1, payload.length, 0)
  | .error _ => 0

def yield (payload : Bytes) : Tally :=
  match classify limit payload with
  | .ok (.stat (.dict _)) => (0, 0, 1)
  | .ok (.audio _) => (1, payload.length, 0)
  | _ => 0

def tallyUnder (value : Bytes → Tally) (id imei : Str) (frames : List Bytes) : Tally :=
  ((filedUnder limit id imei frames).map value).sum

variable (value : Bytes → Tally) (id : Str)

theorem tallyUnder_cons (imei : Str) (f : Bytes) (fs : List Bytes) :
    tallyUnder limit value id imei (f :: fs) =
      (if named limit imei f = id then value f else 0) + tallyUnder limit value id
        (named limit imei f) fs := by
  rw [tallyUnder, filedUnder]
  split
  · simp [tallyUnder]
  · simp [tallyUnder]

theorem filedUnder_append (imei : Str) (fs gs : List Bytes) : filedUnder limit id imei (fs ++ gs) =
    filedUnder limit id imei fs ++ filedUnder limit id (fs.foldl (named limit) imei) gs := by
  induction fs generalizing imei with
  | nil => rfl
  | cons f fs ih =>
    simp only [List.cons_append, filedUnder, List.foldl_cons, ih]
    split
    · rfl
    · rfl

theorem tallyUnder_append (imei : Str) (fs gs : List Bytes) :
    tallyUnder limit value id imei (fs ++ gs) =
    tallyUnder limit value id imei fs + tallyUnder limit value id
      (fs.foldl (named limit) imei) gs := by
  simp [tallyUnder, filedUnder_append]

theorem mem_filedUnder (imei : Str) {frames : List Bytes} {f : Bytes}
    (h : f ∈ filedUnder limit id imei frames) : f ∈ frames := by
  induction frames generalizing imei with
  | nil => simp [filedUnder] at h
  | cons g frames ih =>
    rw [filedUnder] at h
    split at h
    · rcases List.mem_cons.mp h with rfl | h
      · simp
      · exact List.mem_cons_of_mem _ (ih _ h)
    · exact List.mem_cons_of_mem _ (ih _ h)

theorem exists_filedUnder (imei : Str) {frames : List Bytes} {f : Bytes} (h : f ∈ frames) :
    ∃ id, f ∈ filedUnder limit id imei frames := by
  induction frames generalizing imei with
  | nil => simp at h
  | cons g frames ih =>
    rcases List.mem_cons.mp h with rfl | h
    · exact ⟨named limit imei f, by simp [filedUnder]⟩
    · obtain ⟨id, hid⟩ := ih (named limit imei g) h
      refine ⟨id, ?_⟩
      rw [filedUnder]
      split
      · exact List.mem_cons_of_mem _ hid
      · exact hid

end Tallies

section Receiver

variable (limit : ℕ) (decodes : Sink.Decoder)

theorem tally_noteSeq (d : DeviceStats) (seq : ℕ) : (d.noteSeq seq).tally = d.tally := by
  unfold DeviceStats.noteSeq
  split
  · rfl
  · split
    · rfl
    · split
      · rfl
      · rfl

theorem audio_tally {s : Sink} {imei : Str} (h : (s.devices.get imei).isSome = true)
    (decoded : List Bytes)
    (payload : Bytes) : ((s.audio decodes imei decoded payload).1.devices.get imei).isSome = true ∧
      ∀ x, ((s.audio decodes imei decoded payload).1.stats x).tally =
        (s.stats x).tally + if x = imei then (1, payload.length, 0) else 0 := by
  have hnote := update_known (fun d ↦ d.noteFrame payload) h
  have hfirst (x : Str) : ((s.update imei fun d ↦ d.noteFrame payload).stats x).tally =
      (s.stats x).tally + if x = imei then (1, payload.length, 0) else 0 := by
    rw [update_stats _ x h]
    split
    · next hx =>
      subst hx
      rfl
    · simp
  have hquiet {s' : Sink} (h' : (s'.devices.get imei).isSome = true) (f : DeviceStats → DeviceStats)
      (hf : ∀ d, (f d).tally = d.tally) (x : Str) : ((s'.update imei f).stats x).tally =
        (s'.stats x).tally := by
    rw [update_stats _ x h']
    split
    · next hx => rw [hf, hx]
    · rfl
  rw [Sink.audio]
  cases parseAudio payload with
  | error e =>
    refine ⟨update_known _ hnote, fun x ↦ ?_⟩
    rw [← hfirst x]
    exact hquiet hnote DeviceStats.noteError (fun _ ↦ rfl) x
  | ok frame =>
    have hseq := update_known (fun d ↦ d.noteSeq frame.seq) hnote
    dsimp only
    split
    · refine ⟨hseq, fun x ↦ ?_⟩
      rw [hquiet hnote _ (fun d ↦ tally_noteSeq d frame.seq) x, hfirst x]
    · refine ⟨update_known _ hseq, fun x ↦ ?_⟩
      rw [hquiet hseq DeviceStats.noteError (fun _ ↦ rfl) x,
        hquiet hnote _ (fun d ↦ tally_noteSeq d frame.seq) x, hfirst x]

theorem take_tally {p : Sink × Sink.Socket} (h : Sink.Settled p) {payload : Bytes} {kind : Kind}
    (hkind : classify limit payload = .ok kind) :
    Sink.Settled (Sink.take decodes payload p kind) ∧
      (Sink.take decodes payload p kind).2.imei = named limit p.2.imei payload ∧
      ∀ x, ((Sink.take decodes payload p kind).1.stats x).tally =
        (p.1.stats x).tally + if named limit p.2.imei payload = x
          then gain limit payload else 0 := by
  obtain ⟨hid, hknown, hsame⟩ := refer_spec h
  have haudio (hname : named limit p.2.imei payload = p.2.imei)
      (hgain : gain limit payload = (1, payload.length, 0)) :
      Sink.Settled (((p.1.refer p.2).1.audio decodes p.2.imei p.2.decoded payload).1,
          { p.2 with d := some p.2.imei, decoded :=
            ((p.1.refer p.2).1.audio decodes p.2.imei p.2.decoded payload).2 }) ∧
        ∀ x, (((p.1.refer p.2).1.audio decodes p.2.imei p.2.decoded payload).1.stats x).tally =
          (p.1.stats x).tally + if named limit p.2.imei payload = x
          then gain limit payload else 0 := by
    obtain ⟨hin, htally⟩ := audio_tally decodes hknown p.2.decoded payload
    refine ⟨fun imei hd ↦ ?_, fun x ↦ ?_⟩
    · obtain rfl := Option.some.inj hd
      exact ⟨rfl, hin⟩
    · rw [htally, hsame, hname, hgain]
      simp only [eq_comm]
  cases kind with
  | hello value =>
    have hname : named limit p.2.imei payload = value := by simp only [named, hkind]
    have hgain : gain limit payload = 0 := by simp only [gain, hkind]
    refine ⟨fun imei hd ↦ ?_, hname.symm, fun x ↦ ?_⟩
    · obtain rfl := Option.some.inj hd
      exact ⟨rfl, dev_known⟩
    · rw [hgain, Sink.take, dev_stats]
      simp
  | stat value =>
    have hname : named limit p.2.imei payload = p.2.imei := by simp only [named, hkind]
    have hgain : gain limit payload = (0, 0, 1) := by simp only [gain, hkind]
    simp only [Sink.take, hid]
    refine ⟨fun imei hd ↦ ?_, hname.symm, fun x ↦ ?_⟩
    · obtain rfl := Option.some.inj hd
      exact ⟨rfl, update_known _ hknown⟩
    · rw [update_stats _ x hknown, hname, hgain]
      by_cases hx : p.2.imei = x
      · subst hx
        rw [if_pos rfl, if_pos rfl, ← hsame]
        rfl
      · rw [if_neg (Ne.symm hx), if_neg hx, hsame, add_zero]
  | auth deviceId mac =>
    have hname : named limit p.2.imei payload = p.2.imei := by simp only [named, hkind]
    obtain ⟨hsettled, htally⟩ := haudio hname (by simp only [gain, hkind])
    simp only [Sink.take, hid]
    exact ⟨hsettled, hname.symm, htally⟩
  | audio bytes =>
    have hname : named limit p.2.imei payload = p.2.imei := by simp only [named, hkind]
    obtain ⟨hsettled, htally⟩ := haudio hname (by simp only [gain, hkind])
    simp only [Sink.take, hid]
    exact ⟨hsettled, hname.symm, htally⟩

theorem sink_frameLoop_tally (frames : List Bytes) {p : Sink × Sink.Socket}
    (h : Sink.Settled p) (id : Str) :
    ((Sink.frameLoop limit decodes p frames).1.1.stats id).tally =
      (p.1.stats id).tally + tallyUnder limit (gain limit) id p.2.imei
        (understood limit frames) := by
  induction frames generalizing p with
  | nil => simp [Sink.frameLoop, understood, tallyUnder, filedUnder]
  | cons f frames ih =>
    rw [Sink.frameLoop, understood, List.takeWhile_cons]
    cases hc : classify limit f with
    | error e => simp [Sink.dispatch, classified, hc, Except.map, tallyUnder, filedUnder]
    | ok kind =>
      obtain ⟨hsettled, himei, htally⟩ := take_tally limit decodes h hc
      simp only [Sink.dispatch, classified, hc, Except.map, if_true]
      rw [ih hsettled, htally, himei, tallyUnder_cons, add_assoc]
      rfl

end Receiver

section Ingest

variable (limit : ℕ) (peer : Peer) (id : Str)

theorem idAfter_named (imei : Str) (f : Bytes) :
    idAfter limit peer false imei f = named limit imei f := by
  rw [idAfter, emits, named]
  rcases classify limit f with e | kind
  · rfl
  · rcases kind with x | ⟨x, mac⟩ | v | p
    · rfl
    · rfl
    · cases v <;> rfl
    · rfl

theorem emits_tally (imei : Str) (f : Bytes) :
    callsTally id ((emits limit peer false imei f).map Prod.snd).toList =
      if named limit imei f = id then yield limit f else 0 := by
  rw [emits, named, yield]
  rcases classify limit f with e | kind
  · simp [callsTally, audioUnder, statsUnder]
  · rcases kind with x | ⟨x, mac⟩ | v | p
    · simp [callsTally, audioUnder, statsUnder, connectCall]
    · simp [callsTally, audioUnder, statsUnder]
    · cases v with
      | dict entries =>
        by_cases h : imei = id <;> simp [callsTally, audioUnder, statsUnder, statCall, h]
      | _ => simp [callsTally, audioUnder, statsUnder]
    · by_cases h : imei = id <;> simp [callsTally, audioUnder, statsUnder, audioCall, h]

theorem transcript_tally (imei : Str) (frames : List Bytes) :
    callsTally id (transcript limit peer false imei frames) =
      tallyUnder limit (yield limit) id imei (frames.takeWhile (! raises limit ·)) := by
  have hbye (imei : Str) : callsTally id [disconnectCall imei] = 0 := by
    simp [callsTally, audioUnder, statsUnder, disconnectCall]
  induction frames generalizing imei with
  | nil => exact hbye imei
  | cons f frames ih =>
    cases hr : raises limit f with
    | true =>
      simp only [transcript, hr, if_true, hbye, List.takeWhile_cons]
      rfl
    | false =>
      have hcalls : transcript limit peer false imei (f :: frames) =
          ((emits limit peer false imei f).map Prod.snd).toList ++
            transcript limit peer false (named limit imei f) frames := by
        rw [← idAfter_named limit peer, transcript, hr, idAfter]
        cases emits limit peer false imei f <;> rfl
      have hkept : (f :: frames).takeWhile (! raises limit ·) =
          f :: frames.takeWhile (! raises limit ·) := by
        simp [hr]
      rw [hcalls, callsTally_append, emits_tally, ih, hkept, tallyUnder_cons]

end Ingest

section Balance

variable (limit : ℕ) (id : Str)

def excess (payload : Bytes) : Tally := if isAuth limit payload then (1, payload.length, 0) else 0

theorem gain_eq {f : Bytes} (h : raises limit f = false) :
    gain limit f = yield limit f + excess limit f := by
  rw [raises] at h
  rw [gain, yield, excess, isAuth]
  rcases hc : classify limit f with e | kind
  · simp
  · rcases kind with x | ⟨x, mac⟩ | v | p
    · simp
    · simp
    · cases v <;> simp_all
    · simp

theorem tally_gain (imei : Str) {frames : List Bytes} (h : ∀ f ∈ frames, raises limit f = false) :
    tallyUnder limit (gain limit) id imei frames =
      tallyUnder limit (yield limit) id imei frames + tallyUnder limit
        (excess limit) id imei frames := by
  induction frames generalizing imei with
  | nil => rfl
  | cons f frames ih =>
    rw [tallyUnder_cons, tallyUnder_cons, tallyUnder_cons, ih _ fun g hg ↦ h g (by simp [hg])]
    split
    · rw [gain_eq limit (h f (by simp))]
      exact add_add_add_comm _ _ _ _
    · simp only [zero_add]

theorem sum_excess (frames : List Bytes) :
    (frames.map (excess limit)).sum = ((sizes (isAuth limit) frames).length,
      (sizes (isAuth limit) frames).sum, 0) := by
  induction frames with
  | nil => rfl
  | cons f frames ih =>
    rw [List.map_cons, List.sum_cons, ih, excess, sizes, sizes, List.filter_cons]
    split
    · simp [Nat.add_comm]
    · simp

theorem sum_yield {frames : List Bytes} (h : ∀ f ∈ frames, raises limit f = false) :
    (frames.map (yield limit)).sum = ((sizes (isAudio limit) frames).length,
      (sizes (isAudio limit) frames).sum,
      frames.countP (isStat limit)) := by
  induction frames with
  | nil => rfl
  | cons f frames ih =>
    have hf := h f (by simp)
    rw [List.map_cons, List.sum_cons, ih fun g hg ↦ h g (by simp [hg]), sizes, sizes,
      List.filter_cons, List.countP_cons]
    rw [raises] at hf
    rw [yield, isAudio, isStat]
    rcases hc : classify limit f with e | kind
    · simp
    · rcases kind with x | ⟨x, mac⟩ | v | p
      · simp
      · simp
      · cases v <;> simp_all [Nat.add_comm]
      · simp [Nat.add_comm]

theorem gain_of_raises {f : Bytes} (hc : classified limit f = true) (hr : raises limit f = true) :
    gain limit f = (0, 0, 1) := by
  rw [classified] at hc
  rw [raises] at hr
  rw [gain]
  rcases h : classify limit f with e | kind
  · simp [h] at hc
  · rcases kind with x | ⟨x, mac⟩ | v | p
    · simp [h] at hr
    · simp [h] at hr
    · rfl
    · simp [h] at hr

theorem excess_reports (imei : Str) (frames : List Bytes) :
    (tallyUnder limit (excess limit) id imei frames).2.2 = 0 := by
  rw [tallyUnder, sum_excess]

theorem understood_append (frames : List Bytes) :
    understood limit frames ++ frames.drop (understood limit frames).length = frames :=
  (List.prefix_iff_eq_append.mp (List.takeWhile_prefix _)).symm ▸ rfl

theorem takeWhile_beyond {frames : List Bytes}
    (h : ∀ f ∈ understood limit frames, raises limit f = false) :
    frames.takeWhile (! raises limit ·) = understood limit frames ++ beyond limit frames := by
  conv_lhs => rw [← understood_append limit frames]
  rw [beyond]
  apply List.takeWhile_append_of_pos
  intro f hf
  simp [h f hf]

theorem objects_of_tally {frames : List Bytes}
    (h : ∀ id, tallyUnder limit (gain limit) id (lit "unknown") (understood limit frames) =
      tallyUnder limit (yield limit) id (lit "unknown") (frames.takeWhile (! raises limit ·))) :
    ∀ f ∈ understood limit frames, raises limit f = false := by
  by_contra hraises
  push Not at hraises
  obtain ⟨g, hg, hgr⟩ := hraises
  have hne : (understood limit frames).dropWhile (! raises limit ·) ≠ [] := by
    intro hnil
    have hall := List.dropWhile_eq_nil_iff.mp hnil g hg
    simp [hgr] at hall
  obtain ⟨f, rest, hrest⟩ := List.exists_cons_of_ne_nil hne
  have hsplit :=
    List.takeWhile_append_dropWhile (p := (! raises limit ·)) (l := understood limit frames)
  rw [hrest] at hsplit
  generalize hquiet : (understood limit frames).takeWhile (! raises limit ·) = quiet at hsplit
  have hall : ∀ x ∈ quiet, raises limit x = false := by
    intro x hx
    have hx' := List.mem_takeWhile_imp (hquiet ▸ hx)
    simpa using hx'
  have hr : raises limit f = true := by
    have hhead := List.head_dropWhile_not (! raises limit ·) hne
    simpa [hrest] using hhead
  have hc : classified limit f = true := by
    apply List.mem_takeWhile_imp (l := frames)
    change f ∈ understood limit frames
    rw [← hsplit]
    simp
  have hkept : frames.takeWhile (! raises limit ·) = quiet := by
    conv_lhs => rw [← understood_append limit frames, ← hsplit]
    rw [List.append_assoc, List.takeWhile_append_of_pos (by simpa using hall)]
    simp [hr]
  have htally := congrArg (·.2.2) (h (named limit (quiet.foldl (named limit) (lit "unknown")) f))
  rw [hkept, ← hsplit, tallyUnder_append, tallyUnder_cons, if_pos rfl, gain_of_raises limit hc hr,
    tally_gain limit _ _ hall] at htally
  simp only [Prod.snd_add, excess_reports] at htally
  omega

theorem balanced_iff (frames : List Bytes) :
    (∀ id, tallyUnder limit (gain limit) id (lit "unknown") (understood limit frames) =
        tallyUnder limit (yield limit) id (lit "unknown") (frames.takeWhile (! raises limit ·))) ↔
      Balanced limit frames := by
  have hbeyond : ∀ f ∈ beyond limit frames, raises limit f = false := by
    intro f hf
    simpa using List.mem_takeWhile_imp hf
  have hlast (hobjects : ∀ f ∈ understood limit frames, raises limit f = false) (id : Str) :
      tallyUnder limit (gain limit) id (lit "unknown") (understood limit frames) =
          tallyUnder limit (yield limit) id (lit "unknown") (frames.takeWhile (! raises limit ·)) ↔
        tallyUnder limit (excess limit) id (lit "unknown") (understood limit frames) =
          tallyUnder limit (yield limit) id
            ((understood limit frames).foldl (named limit) (lit "unknown"))
              (beyond limit frames) := by
    rw [takeWhile_beyond limit hobjects, tallyUnder_append, tally_gain limit _ _ hobjects,
      add_right_inj]
  have hsum (id imei : Str) : tallyUnder limit (yield limit) id imei (beyond limit frames) =
      ((sizes (isAudio limit) (filedUnder limit id imei (beyond limit frames))).length,
        (sizes (isAudio limit) (filedUnder limit id imei (beyond limit frames))).sum,
        (filedUnder limit id imei (beyond limit frames)).countP (isStat limit)) := by
    apply sum_yield
    exact fun f hf ↦ hbeyond f (mem_filedUnder limit id imei hf)
  constructor
  · intro h
    have hobjects := objects_of_tally limit h
    have hparts (id : Str) := (hlast hobjects id).mp (h id)
    simp only [hsum] at hparts
    simp only [tallyUnder, sum_excess, Prod.mk.injEq] at hparts
    refine ⟨hobjects, ?_, fun id ↦ ⟨(hparts id).1, (hparts id).2.1⟩⟩
    intro f hf
    obtain ⟨id, hid⟩ := exists_filedUnder limit
      ((understood limit frames).foldl (named limit) (lit "unknown")) hf
    exact Bool.eq_false_of_not_eq_true (List.countP_eq_zero.mp (hparts id).2.2.symm f hid)
  · intro h id
    apply (hlast h.objects id).mpr
    rw [hsum, tallyUnder, sum_excess, (h.audio id).1, (h.audio id).2, List.countP_eq_zero.mpr]
    intro f hf
    rw [h.reports f (mem_filedUnder limit id _ hf)]
    simp

end Balance

section Agreement

def made (ing ing' : Ingest) : List Call := ing'.calls.drop ing.calls.length

variable (env : Env) (registry : Registry) (link : Link) (ing : Ingest) (decodes : Sink.Decoder)

/-- The receiver's numbers are those of ingest if and only if what it counts too much is
balanced by what it never gets to. -/
theorem sink_agrees_iff (hmode : env.mode = .disabled) (hbroker : ∀ n, env.broker n = .enqueued)
    (hallow : (ing.allow env link.peer).2 = true) (hchunks : ∀ c ∈ link.chunks, c ≠ []) :
    (ing.handle env registry link).1.queue =
        ing.queue ++ (made ing (ing.handle env registry link).1).map Call.message ∧
      ((∀ id, Agrees ((Sink.init.handle env.limit decodes link.ending link.chunks).1.stats id) id
          (made ing (ing.handle env registry link).1)) ↔
        Balanced env.limit (iterFrames link.chunks.flatten).1) := by
  have hshake : (ing.allow env link.peer).1.handshake env registry link =
      ((ing.allow env link.peer).1, [], .ok (⟨none, false, []⟩, link.chunks)) := if_pos hmode
  obtain ⟨calls, hsession, htimeless, -⟩ :=
    session_spec env link.peer false link.ending link.chunks hchunks
      (ing.allow env link.peer).1 (lit "unknown") []
  rw [iterFrames_resumable.feed_settled [] rfl, List.nil_append] at htimeless
  have hproduced : Produced env ing calls (ing.handle env registry link).1 := by
    rw [handle_accepted env registry link ing (Prod.ext rfl hallow) hshake]
    exact (allow_silent env ing link.peer).1.trans hsession
  have hmade : made ing (ing.handle env registry link).1 = calls := by
    rw [made, hproduced.calls, List.drop_left]
  rw [hmade]
  refine ⟨?_, ?_⟩
  · rw [hproduced.queue, delivered_enqueued env _ _ fun _ _ ↦ hbroker _]
  · rw [← balanced_iff]
    refine forall_congr' fun id ↦ ?_
    rw [agrees_iff, ← callsTally_timeless, htimeless, transcript_tally,
      sink_handle_eq _ _ _ _ hchunks, sink_frameLoop_tally _ _ _ (settled_init _)]
    have hfresh :
        (Sink.stats { Sink.init with connections := Sink.init.connections + 1 } id).tally = 0 := rfl
    rw [hfresh, zero_add]
    rfl

def helloThen (payloads : List Bytes) : Link :=
  .lone ((ascii "HELLO:A" :: payloads).map encodeFrame)

theorem sink_agrees_iff_audio : ∃ calls,
    ((Ingest.init 64 120).handle (Env.calm .disabled) Registry.none
      (helloThen [buildAudio [7] 0 0 0])).1.queue = calls.map Call.message ∧
      ∀ id, Agrees ((Sink.init.handle 1000 (fun _ _ ↦ true) .eof
        (helloThen [buildAudio [7] 0 0 0]).chunks).1.stats id) id calls := by
  obtain ⟨hqueue, hiff⟩ := sink_agrees_iff (Env.calm .disabled) Registry.none
    (helloThen [buildAudio [7] 0 0 0]) (.init 64 120) (fun _ _ ↦ true) rfl (fun _ ↦ rfl)
    (by decide +kernel)
    (by decide)
  refine ⟨_, hqueue, hiff.mpr ?_⟩
  have hframes : (iterFrames (helloThen [buildAudio [7] 0 0 0]).chunks.flatten).1 =
      [ascii "HELLO:A", buildAudio [7] 0 0 0] := by decide +kernel
  rw [hframes]
  have hunderstood : understood (Env.calm .disabled).limit [ascii "HELLO:A", buildAudio [7] 0 0 0] =
      [ascii "HELLO:A", buildAudio [7] 0 0 0] := by decide +kernel
  have hbeyond :
      beyond (Env.calm .disabled).limit [ascii "HELLO:A", buildAudio [7] 0 0 0] = [] := by
    decide +kernel
  refine ⟨?_, ?_, ?_⟩
  · rw [hunderstood]
    decide +kernel
  · rw [hbeyond]
    simp
  · intro id
    rw [hunderstood, hbeyond]
    by_cases h : lit "A" = id
    · subst h
      decide +kernel
    · have hnone : filedUnder (Env.calm .disabled).limit id (lit "unknown")
          [ascii "HELLO:A", buildAudio [7] 0 0 0] = [] := by
        have hname : named (Env.calm .disabled).limit (lit "unknown") (ascii "HELLO:A") =
            lit "A" := by
          decide +kernel
        have hname' : named (Env.calm .disabled).limit (lit "A") (buildAudio [7] 0 0 0) =
            lit "A" := by
          decide +kernel
        simp [filedUnder, hname, hname', h]
      rw [hnone]
      exact ⟨rfl, rfl⟩

/-- The receiver counts an AUTH frame as audio. -/
theorem sink_counts_auth : ¬ Agrees ((Sink.init.handle 1000 (fun _ _ ↦ true) .eof
    (helloThen [ascii "AUTH:A:00"]).chunks).1.stats (lit "A")) (lit "A")
      (made (.init 64 120) ((Ingest.init 64 120).handle (Env.calm .disabled) Registry.none
        (helloThen [ascii "AUTH:A:00"])).1) := by
  intro h
  have hframes := h.frames
  revert hframes
  decide +kernel

end Agreement

end OpusFleet.Server
