import OpusFleet.Server.Receiving
import OpusFleet.Sim.Reconnects

namespace OpusFleet.Sim

open Python Library Server Server.Protocol Library.Serial Library.Runs Server.Sink

section Numbers

def seqUnder (id : Str) (m : Str × Mark) : Option ℕ :=
  match m.2 with
  | .seq n => if m.1 = id then some n else none
  | _ => none

theorem marked_receiver (marks : List (Str × Mark)) (id : Str) (d : DeviceStats) :
    receiver (marked marks id d) =
      (marks.filterMap (seqUnder id)).foldl (Receiver.note 0x8000) (receiver d) := by
  induction marks generalizing d with
  | nil => rfl
  | cons m marks ih =>
    rw [← List.singleton_append, marked_append, ih, List.filterMap_append, List.foldl_append]
    congr 1
    obtain ⟨imei, mark⟩ := m
    by_cases hm : imei = id
    · have hone : marked [(imei, mark)] id d = d.mark mark := by simp [marked, hm]
      rw [hone]
      cases mark with
      | seq n =>
        have hnote : [(imei, Mark.seq n)].filterMap (seqUnder id) = [n] := by simp [seqUnder, hm]
        rw [hnote]
        exact noteSeq_receiver d n
      | frame payload => rfl
      | error => rfl
      | stat value => rfl
    · have hnone : marked [(imei, mark)] id d = d := by simp [marked, hm]
      have hquiet : [(imei, mark)].filterMap (seqUnder id) = [] := by
        cases mark <;> simp [seqUnder, hm]
      rw [hnone, hquiet]
      rfl

end Numbers

section Connections

variable {dev : SimDevice} {limit : ℕ} {q : ℕ} {greeting : List Bytes} {s : Session}

theorem listen_spoken (decodes : Decoder) {frames : List Bytes}
    (h : ∀ f ∈ frames, Spoken dev limit f) (v : Voice) :
    (Sink.listen limit decodes v frames).1.filterMap (seqUnder v.imei) =
        frames.filterMap (seqOf limit) ∧
      ((Sink.listen limit decodes v frames).1.map (weightUnder v.imei)).sum.1.1 =
        (frames.filterMap (seqOf limit)).length := by
  induction frames generalizing v with
  | nil => exact ⟨rfl, rfl⟩
  | cons f frames ih =>
    obtain ⟨hf, hrest⟩ := List.forall_mem_cons.mp h
    rcases hf.2 with ⟨value, hkind⟩ | ⟨opus, seq, ts, hne, rfl⟩
    · have hhear : hear limit decodes v f = some ([(v.imei, .stat value)], v) := by rw [hear, hkind]
      have hnone : seqOf limit f = none := by rw [seqOf, hkind]
      obtain ⟨hseqs, hcount⟩ := ih hrest v
      rw [Sink.listen, hhear, List.filterMap_cons, hnone]
      dsimp only
      refine ⟨hseqs, ?_⟩
      rw [← hcount, List.singleton_append, List.map_cons, List.sum_cons]
      simp [weightUnder, Mark.weight]
    · have hkind := classify_audio_frame limit opus seq ts dev.ssrc
      have hparse := parseAudio_buildAudio hne seq ts dev.ssrc
      obtain ⟨hseqs, hcount⟩ :=
        ih hrest ⟨v.imei, (audioMarks decodes v.decoded (buildAudio opus seq ts dev.ssrc)).2⟩
      have hhear : hear limit decodes v (buildAudio opus seq ts dev.ssrc) =
          some ((audioMarks decodes v.decoded (buildAudio opus seq ts dev.ssrc)).1.map (v.imei, ·),
            ⟨v.imei, (audioMarks decodes v.decoded (buildAudio opus seq ts dev.ssrc)).2⟩) := by
              rw [hear, hkind]
      have hmarks : (audioMarks decodes v.decoded (buildAudio opus seq ts dev.ssrc)).1.filterMap
          (fun m ↦ seqUnder v.imei (v.imei, m)) = [seq % 2 ^ 16] ∧
          ((audioMarks decodes v.decoded (buildAudio opus seq ts dev.ssrc)).1.map
            fun m ↦ weightUnder v.imei (v.imei, m)).sum.1.1 = 1 := by
        have hmod : ((seq : ℤ) % 2 ^ 16).toNat = seq % 2 ^ 16 := by omega
        rw [audioMarks, hparse]
        dsimp only
        rw [hmod]
        by_cases hdec : decodes v.decoded opus = true
        · simp [hdec, seqUnder, weightUnder, Mark.weight]
        · simp [hdec, seqUnder, weightUnder, Mark.weight]
      rw [Sink.listen, hhear, List.filterMap_cons, seqOf_buildAudio hne]
      dsimp only
      rw [List.filterMap_append, List.filterMap_map, List.map_append, List.map_map,
        List.sum_append, hseqs]
      constructor
      · rw [← List.singleton_append (l := List.filterMap _ _)]
        exact congrArg (· ++ _) hmarks.1
      · rw [Prod.fst_add, Prod.fst_add, hcount, List.length_cons, Nat.add_comm]
        exact congrArg (_ + ·) hmarks.2

theorem connection_marks (hfaithful : Faithful dev limit q greeting s)
    (hgreeting : dev.greeting = some greeting)
    (decodes : Decoder) {read : List Bytes} (hpart : read.flatten <+: s.written.flatten) :
    let marks := (Sink.listen limit decodes .init (iterFrames read.flatten).1).1
    let numbers := arriving 0x8000 id q (arrivals limit s (.eof, read))
    marks.filterMap (seqUnder dev.filedAs) = numbers ∧
      (marks.map (weightUnder dev.filedAs)).sum.1.1 = numbers.length := by
  obtain ⟨payloads, hwritten, hspoken, hsent⟩ := hfaithful.written
  rw [hwritten] at hpart
  have hfits : ∀ f ∈ payloads, f.length ≤ maxFrame := fun f hf ↦ (hspoken f hf).1
  have hheard {frames : List Bytes} (hmore : frames <+: payloads) : ∀ f ∈
      frames, Spoken dev limit f :=
    fun f hf ↦ hspoken f (hmore.subset hf)
  have hnumbers {frames : List Bytes} (hmore : frames <+: payloads)
      (hcount : (iterFrames read.flatten).1.filter (isAudio limit) =
        frames.filter (isAudio limit)) :
      frames.filterMap (seqOf limit) = arriving 0x8000 id q (arrivals limit s (.eof, read)) :=
    numbers_arrived hfaithful hspoken hsent hmore hcount
  dsimp only
  by_cases hhello : dev.sendHello = true
  · obtain ⟨first, hfirst, hflat, hkind⟩ := greeting_hello hhello hgreeting limit
    rw [hflat] at hpart
    obtain hnone | ⟨frames, hframes, hmore⟩ := frames_arrived hfirst hfits rfl hpart
    · rw [← hnumbers List.nil_prefix (by rw [hnone]), hnone]
      exact ⟨rfl, rfl⟩
    · have haudio : (iterFrames read.flatten).1.filter (isAudio limit) =
          frames.filter (isAudio limit) := by
        rw [hframes, List.filter_cons, isAudio, hkind]
        rfl
      have hhear : hear limit decodes .init first = some ([], ⟨dev.filedAs, []⟩) := by
        rw [hear, hkind]
        rfl
      rw [← hnumbers hmore haudio, hframes, Sink.listen, hhear]
      exact listen_spoken decodes (hheard hmore) ⟨dev.filedAs, []⟩
  · obtain rfl : [] = greeting := by
      rw [SimDevice.greeting, if_neg hhello] at hgreeting
      exact Option.some.inj hgreeting
    have hname : dev.filedAs = lit "unknown" := by simp [SimDevice.filedAs, hhello]
    have hmore := iterFrames_part hfits hpart
    rw [← hnumbers hmore rfl, hname]
    exact listen_spoken decodes (hheard hmore) .init

end Connections

section Reach

variable {limit q : ℕ} {es : List Sink.Event} {ss : List Session} {cs : List ℕ} {c c' n : ℕ}

/-- The frames made in all sessions, numbered from `q` on, that arrive over each connection. -/
def reaches (limit : ℕ) (es : List Sink.Event) : ℕ → List Session → List ℕ → ℕ → List ℕ
  | q, s :: ss, c :: cs => Function.update (reaches limit es (q + s.generated.length) ss cs) c
      (indices id q (arrivals limit s (.eof, chunks c es)))
  | _, _, _ => fun _ ↦ []

theorem mem_reaches (h : n ∈ reaches limit es q ss cs c) : q ≤ n ∧ c ∈ cs := by
  induction ss generalizing q cs with
  | nil => cases h
  | cons s ss ih =>
    cases cs with
    | nil => cases h
    | cons c₀ cs =>
      rw [reaches] at h
      by_cases hc : c = c₀
      · subst hc
        rw [Function.update_self] at h
        exact ⟨(mem_indices id h).1, List.mem_cons_self⟩
      · rw [Function.update_of_ne hc] at h
        obtain ⟨hle, hmem⟩ := ih h
        exact ⟨by omega, List.mem_cons_of_mem c₀ hmem⟩

theorem reaches_nodup : (reaches limit es q ss cs c).Nodup := by
  induction ss generalizing q cs with
  | nil => exact List.nodup_nil
  | cons s ss ih =>
    cases cs with
    | nil => exact List.nodup_nil
    | cons c₀ cs =>
      rw [reaches]
      by_cases hc : c = c₀
      · subst hc
        rw [Function.update_self]
        exact indices_nodup id q _
      · rw [Function.update_of_ne hc]
        exact ih

theorem reaches_apart (h : n ∈ reaches limit es q ss cs c) (h' : n ∈ reaches limit es q ss cs c') :
    c = c' := by
  induction ss generalizing q cs with
  | nil => cases h
  | cons s ss ih =>
    cases cs with
    | nil => cases h
    | cons c₀ cs =>
      have hbound {x : ℕ} (hx : n ∈ indices id q (arrivals limit s (.eof, chunks c₀ es)))
          (hx' : n ∈ reaches limit es (q + s.generated.length) ss cs x) : False := by
        have hlt := (mem_indices id hx).2
        have hge := (mem_reaches hx').1
        rw [arrivals, landed_length] at hlt
        omega
      rw [reaches] at h h'
      by_cases hc : c = c₀
      · by_cases hc' : c' = c₀
        · rw [hc, hc']
        · rw [hc, Function.update_self] at h
          rw [Function.update_of_ne hc'] at h'
          exact (hbound h h').elim
      · rw [Function.update_of_ne hc] at h
        by_cases hc' : c' = c₀
        · rw [hc', Function.update_self] at h'
          exact (hbound h' h).elim
        · rw [Function.update_of_ne hc'] at h'
          exact ih h h'

end Reach

section Overlaps

variable {dev : SimDevice} {limit : ℕ} {es : List Sink.Event} {decodes : Decoder}
    {ss : List Session} {cs : List ℕ}

theorem connections_marks (hpackets : ∀ pkt ∈ dev.packets, 1 ≤ pkt.length ∧ pkt.length ≤ 65523)
    (hloop : dev.loop = true) {self : Counters} {plan : List (World limit × ℕ)}
    (hsessions : dev.run self plan = some ss)
    (hconns : List.Forall₂ (fun s c ↦ (chunks c es).flatten <+: s.written.flatten) ss cs)
    (hcs : cs.Nodup) {q : ℕ} (hq : self.seq % 2 ^ 16 = q % 2 ^ 16) : ∀ c ∈ cs,
      (marksOf limit decodes c es).filterMap (seqUnder dev.filedAs) =
          (reaches limit es q ss cs c).map (· % (2 * 0x8000)) ∧
        ((marksOf limit decodes c es).map (weightUnder dev.filedAs)).sum.1.1 =
          (reaches limit es q ss cs c).length := by
  induction hconns generalizing self plan q with
  | nil => simp
  | @cons s c ss cs hconn _ ih =>
    cases plan with
    | nil => cases hsessions
    | cons session plan =>
      obtain ⟨world, n⟩ := session
      obtain ⟨s', hsession, hrest⟩ := Option.bind_eq_some_iff.mp hsessions
      rw [if_pos hloop] at hrest
      obtain ⟨ss', hmore, hcons⟩ := Option.map_eq_some_iff.mp hrest
      obtain ⟨rfl, rfl⟩ := List.cons.inj hcons
      obtain ⟨greeting, hgreeting, hsteady⟩ := session_steady hpackets hloop hsession
      obtain ⟨hnew, hnodup⟩ := List.nodup_cons.mp hcs
      have hnext : s'.self.seq % 2 ^ 16 = (q + s'.generated.length) % 2 ^ 16 := by
        rw [hsteady.seq]
        omega
      intro x hx
      rw [reaches]
      rcases List.mem_cons.mp hx with rfl | hx
      · obtain ⟨hnumbers, hcount⟩ := connection_marks hsteady.faithful hgreeting decodes hconn
        rw [arriving_congr 0x8000 id hq, arriving_indices] at hnumbers hcount
        rw [List.length_map] at hcount
        rw [Function.update_self]
        exact ⟨hnumbers, hcount⟩
      · have hne : x ≠ c := fun h ↦ hnew (h ▸ hx)
        rw [Function.update_of_ne hne]
        exact ih hmore hnodup hnext x hx

theorem quiet_marks {id : Str} {marks : List (Str × Mark)} (h : ∀ m ∈ marks, m.1 ≠ id) :
    marks.filterMap (seqUnder id) = [] ∧ (marks.map (weightUnder id)).sum.1.1 = 0 := by
  constructor
  · refine List.filterMap_eq_nil_iff.mpr fun m hm ↦ ?_
    rw [seqUnder]
    split
    · exact if_neg (h m hm)
    · rfl
  · have hzero : marks.map (weightUnder id) = marks.map fun _ ↦ 0 :=
      List.map_congr_left fun m hm ↦ if_neg (h m hm)
    rw [hzero]
    simp

theorem frames_sum (counts : List (Tally × ℕ)) :
    counts.sum.1.1 = (counts.map fun t ↦ t.1.1).sum := by
  induction counts with
  | nil => rfl
  | cons t counts ih =>
    rw [List.sum_cons, List.map_cons, List.sum_cons, ← ih]
    rfl

section Order

variable {id : Str} {t : Serving} {logs : ℕ → List ℕ} {xs : List (ℕ × ℕ)}
  (hrun : run (Serving.step limit decodes) .init es = some t)
  (horder : xs.map (fun x ↦ (x.1, x.2 % (2 * 0x8000))) =
    (annals limit decodes [] es).filterMap (fun x ↦ (seqUnder id x.2).map (x.1, ·)))

include hrun horder

theorem frames_order
    (hcounts : ∀ c, ((marksOf limit decodes c es).map (weightUnder id)).sum.1.1 = (logs c).length)
    (hxs : Shuffle logs xs) : (t.sink.stats id).frames = xs.length := by
  obtain ⟨hnodup, -, -⟩ := run_accepted hrun
  have haccepted : ∀ x ∈ xs, x.1 ∈ accepted es := by
    intro x hx
    have hy := List.mem_map_of_mem (f := fun x : ℕ × ℕ ↦ (x.1, x.2 % (2 * 0x8000))) hx
    rw [horder] at hy
    obtain ⟨y, hy, hsome⟩ := List.mem_filterMap.mp hy
    obtain ⟨n, -, hn⟩ := Option.map_eq_some_iff.mp hsome
    have hname : y.1 = x.1 := congrArg Prod.fst hn
    rw [← hname]
    exact annals_accepted hrun y hy
  have hlength := hxs.sum_map (fun _ ↦ 1) hnodup haccepted
  have hsum := (annals_merge limit decodes es).sum_map (weightUnder id) hnodup
    (annals_accepted hrun)
  have htotal := counts_marked ((annals limit decodes [] es).map Prod.snd) id (.new id)
  rw [← (served_run hrun).stats, hsum] at htotal
  calc (t.sink.stats id).frames
    _ = 0 + ((accepted es).map fun c ↦
      ((marksOf limit decodes c es).map (weightUnder id)).sum).sum.1.1 :=
        congrArg (fun t : Tally × ℕ ↦ t.1.1) htotal
    _ = ((accepted es).map fun c ↦ (logs c).length).sum := by
        rw [Nat.zero_add, frames_sum, List.map_map]
        exact congrArg List.sum (List.map_congr_left fun c _ ↦ hcounts c)
    _ = xs.length := by simpa [Function.comp_def] using hlength.symm

/-- The receiver notes the numbers in the order of the reads. -/
theorem receiver_order : receiver (t.sink.stats id) =
    ((xs.map Prod.snd).map (· % (2 * 0x8000))).foldl (Receiver.note 0x8000) .init := by
  have hseqs : ((annals limit decodes [] es).map Prod.snd).filterMap (seqUnder id) =
      (xs.map Prod.snd).map (· % (2 * 0x8000)) := by
    have hnumbers := congrArg (List.map Prod.snd) horder
    rw [List.map_map, List.map_filterMap] at hnumbers
    rw [List.filterMap_map, List.map_map]
    refine Eq.trans (List.filterMap_congr fun x _ ↦ ?_) hnumbers.symm
    cases h : seqUnder id x.2 with
    | none => simp [h]
    | some n => simp [h]
  rw [(served_run hrun).stats, marked_receiver, hseqs]
  rfl

end Order

/-- Loss accounting where the connections of a device overlap: it is back on a new one while the
receiver still reads an old one, between those of other devices. Whatever the order of the reads,
the receiver has counted the frames that arrived; its lost frames and those from before the first
arrival are those that never arrived and those it calls reordered, as long as no frame is half the
numbers away from the furthest one before it. -/
theorem overlaps_accounted (hpackets : ∀ pkt ∈ dev.packets, 1 ≤ pkt.length ∧ pkt.length ≤ 65523)
    (hloop : dev.loop = true) {self : Counters} {plan : List (World limit × ℕ)}
    (hsessions : dev.run self plan = some ss)
    {t : Serving} (hrun : run (Serving.step limit decodes) .init es = some t) (hcs : cs.Nodup)
    (hconns : List.Forall₂ (fun s c ↦ (chunks c es).flatten <+: s.written.flatten) ss cs)
    (hquiet : ∀ c ∉ cs, ∀ m ∈ marksOf limit decodes c es, m.1 ≠ dev.filedAs) :
    ∃ xs, Shuffle (reaches limit es self.seq ss cs) xs ∧
      xs.map (fun x ↦ (x.1, x.2 % 2 ^ 16)) =
        (annals limit decodes [] es).filterMap (fun x ↦ (seqUnder dev.filedAs x.2).map (x.1, ·)) ∧
      (t.sink.stats dev.filedAs).frames = xs.length ∧
      ∀ first ns, xs.map Prod.snd = first :: ns → Near 0x8000 first ns →
        (t.sink.stats dev.filedAs).lost + ns.countP (· < first) =
          (t.sink.stats dev.filedAs).reordered + (missing first ns).length := by
  have hmarks (c : ℕ) : (marksOf limit decodes c es).filterMap (seqUnder dev.filedAs) =
        (reaches limit es self.seq ss cs c).map (· % (2 * 0x8000)) ∧
      ((marksOf limit decodes c es).map (weightUnder dev.filedAs)).sum.1.1 =
        (reaches limit es self.seq ss cs c).length := by
    by_cases hc : c ∈ cs
    · exact connections_marks hpackets hloop hsessions hconns hcs rfl c hc
    · have hnone : reaches limit es self.seq ss cs c = [] :=
        List.eq_nil_iff_forall_not_mem.mpr fun n hn ↦ hc (mem_reaches hn).2
      rw [hnone]
      exact quiet_marks (hquiet c hc)
  have hnumbers := (annals_merge limit decodes es).filterMap (seqUnder dev.filedAs)
  have hlogs : (fun c ↦ (marksOf limit decodes c es).filterMap (seqUnder dev.filedAs)) =
      fun c ↦ (reaches limit es self.seq ss cs c).map (· % (2 * 0x8000)) :=
        funext fun c ↦ (hmarks c).1
  rw [hlogs] at hnumbers
  obtain ⟨xs, hxs, horder⟩ := hnumbers.lift
  refine ⟨xs, hxs, horder, frames_order hrun horder (fun c ↦ (hmarks c).2) hxs,
    fun first ns hfirst hnear ↦ ?_⟩
  have hnodup : (first :: ns).Nodup := by
    rw [← hfirst]
    exact hxs.nodup (fun c ↦ reaches_nodup) fun c c' n h h' ↦ reaches_apart h h'
  have hlate := receive_late hnear hnodup
  rw [← hfirst, ← receiver_order hrun horder] at hlate
  exact hlate

/-- The last frame of the first connection comes after the first one of the second connection. -/
def returning : List Sink.Event :=
  [.accept 0, .recv 0 (aired.take 30), .accept 1,
    .recv 1 ([ascii "HELLO:A", buildAudio [7] 2 2880 rtpSsrc].flatMap encodeFrame),
      .recv 0 (aired.drop 30), .ended 0]

theorem overlaps_accounted_returning :
    ∃ t, run (Serving.step 1000 fun _ _ ↦ true) .init returning = some t ∧
      (t.sink.stats (lit "A")).frames = 3 ∧
      (t.sink.stats (lit "A")).lost = (t.sink.stats (lit "A")).reordered + 1 := by
  obtain ⟨s, s', hsessions, ⟨hwritten, hgenerated⟩, hwritten', hgenerated'⟩ := lossy_sessions
  have hsome : (run (Serving.step 1000 fun _ _ ↦ true) .init returning).isSome = true := by
    decide +kernel
  obtain ⟨t, ht⟩ := Option.isSome_iff_exists.mp hsome
  have hconns : List.Forall₂ (fun s c ↦ (chunks c returning).flatten <+: s.written.flatten) [s,
      s'] [0, 1] := by
    refine .cons ?_ (.cons ?_ .nil)
    · rw [hwritten]
      decide +kernel
    · rw [hwritten']
      decide +kernel
  have hquiet : ∀ c ∉ [0, 1], ∀ m ∈ marksOf 1000 (fun _ _ ↦ true) c returning,
      m.1 ≠ lossy.filedAs := by
    intro c hc m hm
    have hnone : chunks c returning = [] := by
      simp only [List.mem_cons, List.not_mem_nil, or_false, not_or] at hc
      simp [chunks, returning, Ne.symm hc.1, Ne.symm hc.2]
    rw [marksOf, hnone] at hm
    cases hm
  have hzero : reaches 1000 returning 65535 [s, s'] [0, 1] 0 = [65535, 65537] := by
    simp only [reaches, Function.update_self, arrivals, hgenerated]
    decide +kernel
  have hone : reaches 1000 returning 65535 [s, s'] [0, 1] 1 = [65538] := by
    simp only [reaches, Function.update_of_ne (show (1 : ℕ) ≠ 0 by decide), Function.update_self,
      arrivals, hgenerated, hgenerated']
    decide +kernel
  obtain ⟨xs, hxs, horder, hframes, hlate⟩ :=
    overlaps_accounted (by decide) rfl hsessions ht (by decide) hconns hquiet
  have hannals : (annals 1000 (fun _ _ ↦ true) [] returning).filterMap
      (fun x ↦ (seqUnder lossy.filedAs x.2).map (x.1, ·)) = [(0, 65535), (1, 2), (0, 1)] := by
        decide +kernel
  rw [hannals] at horder
  obtain ⟨⟨k, n⟩, rest, rfl, hfirst, horder⟩ := List.map_eq_cons_iff.mp horder
  obtain ⟨⟨k', n'⟩, rest, rfl, hsecond, horder⟩ := List.map_eq_cons_iff.mp horder
  obtain ⟨⟨k'', n''⟩, rest, rfl, hthird, hnil⟩ := List.map_eq_cons_iff.mp horder
  obtain rfl := List.map_eq_nil_iff.mp hnil
  obtain ⟨rfl, hn⟩ : k = 0 ∧ n % 2 ^ 16 = 65535 := Prod.mk.inj hfirst
  obtain ⟨rfl, hn'⟩ : k' = 1 ∧ n' % 2 ^ 16 = 2 := Prod.mk.inj hsecond
  obtain ⟨rfl, hn''⟩ : k'' = 0 ∧ n'' % 2 ^ 16 = 1 := Prod.mk.inj hthird
  have hmem : n ∈ [65535, 65537] := hzero ▸ hxs.mem.mp (by simp)
  have hmem' : n' ∈ [65538] := hone ▸ hxs.mem.mp (by simp)
  have hmem'' : n'' ∈ [65535, 65537] := hzero ▸ hxs.mem.mp (by simp)
  obtain rfl : n = 65535 := by
    simp only [List.mem_cons, List.not_mem_nil, or_false] at hmem
    omega
  obtain rfl : n' = 65538 := List.mem_singleton.mp hmem'
  obtain rfl : n'' = 65537 := by
    simp only [List.mem_cons, List.not_mem_nil, or_false] at hmem''
    omega
  have hnear : Near 0x8000 65535 [65538, 65537] := by simp [Near]
  have hcounted := hlate 65535 [65538, 65537] rfl hnear
  have hmissing : (missing 65535 [65538, 65537]).length = 1 := by decide +kernel
  rw [hmissing] at hcounted
  exact ⟨t, ht, hframes, hcounted⟩

end Overlaps

end OpusFleet.Sim
