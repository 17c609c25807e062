import Mathlib.Data.List.DropRight
import Mathlib.Data.List.Infix
import Mathlib.Data.List.Nodup
import Mathlib.Data.Int.ModEq

namespace OpusFleet.Library.Serial

section Trimmed

variable {α : Type*} (p : α → Bool)

/-- The part of a list from the first element with `p` to the last. -/
def trimmed (xs : List α) : List α := (xs.dropWhile (! p ·)).rdropWhile (! p ·)

theorem trimmed_within (xs : List α) : trimmed p xs <:+: xs :=
  (List.rdropWhile_prefix _ _).isInfix.trans (List.dropWhile_suffix _).isInfix

theorem trimmed_append_none (as : List α) {bs : List α} (h : ∀ b ∈ bs, p b = false) :
    trimmed p (as ++ bs) = trimmed p as := by
  have hbs : ∀ b ∈ bs, (! p b) = true := fun b hb ↦ by rw [h b hb]; rfl
  have htail (xs : List α) : (xs ++ bs).rdropWhile (! p ·) = xs.rdropWhile (! p ·) := by
    rw [List.rdropWhile, List.reverse_append, List.dropWhile_append_of_pos, List.rdropWhile]
    intro b hb
    exact hbs b (List.mem_reverse.mp hb)
  rw [trimmed, trimmed, List.dropWhile_append]
  split
  · next hnil => rw [List.isEmpty_iff.mp hnil, List.dropWhile_eq_nil_iff.mpr hbs]
  · exact htail _

theorem trimmed_cases (xs : List α) : ∃ lead tail, xs = lead ++ trimmed p xs ++ tail ∧
    (∀ a ∈ lead, p a = false) ∧ (∀ a ∈ tail, p a = false) ∧
    (trimmed p xs = [] ∨ ∃ a rest, trimmed p xs = a :: rest ∧ p a = true ∧
      (rest = [] ∨ ∃ mid b, rest = mid ++ [b] ∧ p b = true)) := by
  refine ⟨xs.takeWhile (! p ·), (xs.dropWhile (! p ·)).rtakeWhile (! p ·), ?_, ?_, ?_, ?_⟩
  · rw [List.append_assoc, trimmed]
    conv_lhs => rw [← List.takeWhile_append_dropWhile (p := (! p ·)) (l := xs)]
    congr 1
    simp only [List.rdropWhile, List.rtakeWhile, ← List.reverse_append,
      List.takeWhile_append_dropWhile, List.reverse_reverse]
  · intro a ha
    simpa using List.mem_takeWhile_imp ha
  · intro a ha
    simpa using List.mem_rtakeWhile_imp ha
  · cases h : trimmed p xs with
    | nil => exact .inl rfl
    | cons a rest =>
      have hfirst : p a = true := by
        have hprefix : trimmed p xs <+: xs.dropWhile (! p ·) := List.rdropWhile_prefix _ _
        rw [h] at hprefix
        obtain ⟨tail, htail⟩ := hprefix
        have hne : xs.dropWhile (! p ·) ≠ [] := by simp [← htail]
        have hhead := List.head_dropWhile_not (! p ·) hne
        simpa [← htail] using hhead
      refine .inr ⟨a, rest, rfl, hfirst, ?_⟩
      cases rest using List.reverseRecOn with
      | nil => exact .inl rfl
      | append_singleton mid b =>
        have hne : (xs.dropWhile (! p ·)).rdropWhile (! p ·) ≠ [] := by
          rw [trimmed] at h
          simp [h]
        have hlast := List.rdropWhile_last_not (! p ·) _ hne
        simp only [trimmed] at h
        simp only [h] at hlast
        exact .inr ⟨mid, b, rfl, by simpa using hlast⟩

end Trimmed

/-- A receiver of numbered packets: the last number it took, and what it thinks of the others. -/
structure Receiver where
  last : Option ℕ
  lost : ℕ
  reordered : ℕ

def Receiver.init : Receiver := ⟨none, 0, 0⟩

variable (half : ℕ)

def gap (seq last : ℕ) : ℕ := (((seq : ℤ) - last - 1) % (2 * half : ℕ)).toNat

/-- A number in the half of the circle ahead is taken, and all that it skips is lost. -/
def Receiver.note (r : Receiver) (seq : ℕ) : Receiver :=
  match r.last with
  | none => { r with last := some seq }
  | some last =>
    if gap half seq last < half then { r with lost := r.lost + gap half seq last, last := some seq }
    else { r with reordered := r.reordered + 1 }

theorem gap_mod (q g : ℕ) (hg : g < half) :
    gap half ((q + g + 1) % (2 * half)) (q % (2 * half)) = g := by
  have hdiff : (((q + g + 1) % (2 * half) : ℕ) : ℤ) - ((q % (2 * half) : ℕ) : ℤ) - 1 ≡ (g : ℤ)
      [ZMOD (2 * half : ℕ)] := by
    rw [Int.natCast_mod, Int.natCast_mod]
    have h := ((Int.mod_modEq ((q + g + 1 : ℕ) : ℤ) (2 * half : ℕ)).sub
      (Int.mod_modEq (q : ℤ) (2 * half : ℕ))).sub_right 1
    have he : ((q + g + 1 : ℕ) : ℤ) - q - 1 = g := by omega
    rwa [he] at h
  have hlt : (g : ℤ) < (2 * half : ℕ) := by omega
  rw [gap, hdiff.eq, Int.emod_eq_of_lt (Int.natCast_nonneg g) hlt, Int.toNat_natCast]

variable {α : Type*} (p : α → Bool)

/-- The numbers of the packets that arrive, when each packet is numbered, from `q` on. -/
def arriving : ℕ → List α → List ℕ
  | _, [] => []
  | q, a :: as => if p a then q % (2 * half) :: arriving (q + 1) as else arriving (q + 1) as

theorem arriving_append (q : ℕ) (as bs : List α) :
    arriving half p q (as ++ bs) = arriving half p q as ++ arriving half p (q + as.length) bs := by
  induction as generalizing q with
  | nil => rfl
  | cons a as ih =>
    simp only [List.cons_append, arriving, ih, List.length_cons]
    have hq : q + 1 + as.length = q + (as.length + 1) := by omega
    rw [hq]
    split
    · rfl
    · rfl

theorem arriving_congr {q q' : ℕ} (h : q % (2 * half) = q' % (2 * half)) (as : List α) :
    arriving half p q as = arriving half p q' as := by
  induction as generalizing q q' with
  | nil => rfl
  | cons a as ih => rw [arriving, arriving, h, ih (Nat.ModEq.add_right 1 h)]

def indices : ℕ → List α → List ℕ
  | _, [] => []
  | q, a :: as => if p a then q :: indices (q + 1) as else indices (q + 1) as

theorem arriving_indices (q : ℕ) (as : List α) :
    arriving half p q as = (indices p q as).map (· % (2 * half)) := by
  induction as generalizing q with
  | nil => rfl
  | cons a as ih =>
    rw [arriving, indices, ih]
    split <;> rfl

theorem mem_indices {q n : ℕ} {as : List α} (h : n ∈ indices p q as) :
    q ≤ n ∧ n < q + as.length := by
  induction as generalizing q with
  | nil => cases h
  | cons a as ih =>
    have hrest (hn : n ∈ indices p (q + 1) as) : q ≤ n ∧ n < q + (a :: as).length := by
      have hbounds := ih hn
      rw [List.length_cons]
      omega
    rw [indices] at h
    split at h
    · rcases List.mem_cons.mp h with rfl | h
      · exact ⟨le_rfl, by simp⟩
      · exact hrest h
    · exact hrest h

theorem indices_nodup (q : ℕ) (as : List α) : (indices p q as).Nodup := by
  induction as generalizing q with
  | nil => exact List.nodup_nil
  | cons a as ih =>
    rw [indices]
    split
    · refine List.nodup_cons.mpr ⟨fun hq ↦ ?_, ih (q + 1)⟩
      have hbounds := mem_indices p hq
      omega
    · exact ih (q + 1)

theorem arriving_none (q : ℕ) {as : List α} (h : ∀ a ∈ as, p a = false) :
    arriving half p q as = [] := by
  induction as generalizing q with
  | nil => rfl
  | cons a as ih =>
    rw [arriving, h a (by simp)]
    exact ih (q + 1) fun b hb ↦ h b (by simp [hb])

/-- No run of packets that do not arrive is as long as half the circle. -/
def Bridged (as : List α) : Prop := ∀ run, run <:+: as → (∀ a ∈ run, p a = false) →
    run.length < half

variable {half p}

theorem Bridged.of_infix {as bs : List α} (h : Bridged half p as) (hbs : bs <:+: as) :
    Bridged half p bs :=
  fun run hrun hnone ↦ h run (hrun.trans hbs) hnone

theorem note_ahead {r : Receiver} {q : ℕ} (hlast : r.last = some (q % (2 * half))) {g : ℕ}
    (hg : g < half) :
    r.note half ((q + g + 1) % (2 * half)) =
      { r with lost := r.lost + g, last := some ((q + g + 1) % (2 * half)) } := by
  simp only [Receiver.note, hlast, gap_mod half q g hg, if_pos hg]

theorem note_arriving {mid : List α} {b : α} (hb : p b = true) (skipped : List α)
    (hskipped : ∀ a ∈ skipped, p a = false)
    (hbridged : Bridged half p (skipped ++ mid)) (q : ℕ) (r : Receiver)
    (hlast : r.last = some (q % (2 * half))) :
    let r' := (arriving half p (q + skipped.length + 1) (mid ++ [b])).foldl (Receiver.note half) r
    r'.lost = r.lost + skipped.length + mid.countP (! p ·) ∧ r'.reordered = r.reordered := by
  have hshort : skipped.length < half := hbridged skipped (List.prefix_append _ _).isInfix hskipped
  induction mid generalizing skipped q r with
  | nil => simp [arriving, hb, note_ahead hlast hshort]
  | cons a mid ih =>
    cases ha : p a with
    | true =>
      have hrest : Bridged half p ([] ++ mid) := hbridged.of_infix ⟨skipped ++ [a], [], by simp⟩
      obtain ⟨hlost, hreordered⟩ := ih [] (by simp) hrest (q + skipped.length + 1)
        { r with
        lost := r.lost + skipped.length
        last := some ((q + skipped.length + 1) % (2 * half)) }
        rfl (by simp only [List.length_nil]; omega)
      simp only [List.cons_append, arriving, ha, if_true, List.foldl_cons, note_ahead hlast hshort]
      exact ⟨by simpa [ha] using hlost, hreordered⟩
    | false =>
      have hmore : ∀ x ∈ skipped ++ [a], p x = false := by
        intro x hx
        rcases List.mem_append.mp hx with hx | hx
        · exact hskipped x hx
        · rw [List.mem_singleton.mp hx, ha]
      have hrest : Bridged half p (skipped ++ [a] ++ mid) := by
        rw [List.append_assoc]
        exact hbridged
      obtain ⟨hlost, hreordered⟩ :=
        ih _ hmore hrest q r hlast (hrest _ (List.prefix_append _ _).isInfix hmore)
      have hlen : q + (skipped ++ [a]).length + 1 = q + skipped.length + 1 + 1 := by
        rw [List.length_append, List.length_singleton]
        omega
      rw [hlen] at hlost hreordered
      simp only [List.cons_append, arriving, ha, Bool.false_eq_true, if_false]
      refine ⟨?_, hreordered⟩
      rw [hlost, List.length_append, List.length_singleton, List.countP_cons, ha]
      simp
      omega

/-- The receiver counts exactly what is missing between the first arrival and the last, around
the circle any number of times. -/
theorem receive_exact (q : ℕ) {as : List α} (h : Bridged half p (trimmed p as)) :
    let r := (arriving half p q as).foldl (Receiver.note half) .init
    r.lost = (trimmed p as).countP (! p ·) ∧ r.reordered = 0 := by
  obtain ⟨lead, tail, hsplit, hlead, htail, hinner⟩ := trimmed_cases p as
  have harriving : arriving half p q as = arriving half p (q + lead.length) (trimmed p as) := by
    conv_lhs => rw [hsplit]
    rw [arriving_append, arriving_append, arriving_none half p _ hlead,
      arriving_none half p _ htail, List.nil_append, List.append_nil]
  rw [harriving]
  rcases hinner with hnil | ⟨a, rest, hcons, ha, hrest⟩
  · rw [hnil]
    exact ⟨rfl, rfl⟩
  rw [hcons] at h ⊢
  have hfirst : Receiver.init.note half ((q + lead.length) % (2 * half)) =
      ⟨some ((q + lead.length) % (2 * half)), 0, 0⟩ := rfl
  simp only [arriving, ha, if_true, List.foldl_cons, hfirst]
  rcases hrest with rfl | ⟨mid, b, rfl, hb⟩
  · simp [arriving, ha]
  · have hmid : Bridged half p ([] ++ mid) := h.of_infix ⟨[a], [b], by simp⟩
    obtain ⟨hlost, hreordered⟩ := note_arriving hb [] (by simp) hmid (q + lead.length)
      ⟨some ((q + lead.length) % (2 * half)), 0, 0⟩ rfl
    exact ⟨by simpa [ha, hb] using hlost, hreordered⟩

section Late

/-- Each number lies within half the circle of the highest one before it. -/
def Near (half : ℕ) : ℕ → List ℕ → Prop
  | _, [] => True
  | top, n :: ns => n ≤ top + half ∧ top < n + half ∧ Near half (max top n) ns

theorem gap_behind {top n : ℕ} (hn : n ≤ top) (hnear : top < n + half) :
    half ≤ gap half (n % (2 * half)) (top % (2 * half)) := by
  have hdiff : ((n % (2 * half) : ℕ) : ℤ) - ((top % (2 * half) : ℕ) : ℤ) - 1 ≡ 2 *
    half - 1 - (top - n)
      [ZMOD (2 * half : ℕ)] := by
    rw [Int.natCast_mod, Int.natCast_mod]
    have h := ((Int.mod_modEq (n : ℤ) (2 * half : ℕ)).sub
      (Int.mod_modEq (top : ℤ) (2 * half : ℕ))).sub_right 1
    refine h.trans (Int.modEq_iff_dvd.mpr ⟨1, ?_⟩)
    push_cast
    omega
  have hlt : (2 * half - 1 - (top - n) : ℤ) < (2 * half : ℕ) := by
    push_cast
    omega
  rw [gap, hdiff.eq, Int.emod_eq_of_lt (by omega) hlt]
  omega

theorem note_behind {r : Receiver} {top n : ℕ}
    (hlast : r.last = some (top % (2 * half))) (hn : n ≤ top) (hnear : top < n + half) :
    r.note half (n % (2 * half)) = { r with reordered := r.reordered + 1 } := by
  have hgap : ¬gap half (n % (2 * half)) (top % (2 * half)) < half := by
    have h := gap_behind hn hnear
    omega
  simp only [Receiver.note, hlast, if_neg hgap]

/-- What the receiver counts as lost is what was skipped on the way to the highest number, less what
came of it in time, and a number that comes late is not taken off again. -/
theorem note_near {ns : List ℕ} {top : ℕ} {r : Receiver} (hlast : r.last = some (top % (2 * half)))
    (h : Near half top ns) :
    let r' := (ns.map (· % (2 * half))).foldl (Receiver.note half) r
    r'.lost + r.reordered + ns.length + top = r.lost + r'.reordered + ns.foldl max top := by
  induction ns generalizing top r with
  | nil =>
    simp only [List.map_nil, List.foldl_nil, List.length_nil]
    omega
  | cons n ns ih =>
    obtain ⟨hahead, hbehind, hrest⟩ := h
    simp only [List.map_cons, List.foldl_cons, List.length_cons]
    rcases Nat.lt_or_ge top n with hlt | hge
    · obtain ⟨g, rfl⟩ : ∃ g, n = top + g + 1 := ⟨n - top - 1, by omega⟩
      have hmax : max top (top + g + 1) = top + g + 1 := by omega
      rw [hmax] at hrest ⊢
      rw [note_ahead hlast (by omega)]
      have hsum :=
      ih (r := { r with lost := r.lost + g, last := some ((top + g + 1) % (2 * half)) }) rfl hrest
      dsimp only at hsum
      omega
    · rw [max_eq_left hge] at hrest ⊢
      rw [note_behind hlast hge hbehind]
      have hsum := ih (r := { r with reordered := r.reordered + 1 }) hlast hrest
      dsimp only at hsum
      omega

def missing (first : ℕ) (ns : List ℕ) : List ℕ :=
  (List.range' first (ns.foldl max first + 1 - first)).filter fun n ↦ n ∉ first :: ns

theorem le_foldl_max (top : ℕ) (ns : List ℕ) : ∀ n ∈ top :: ns, n ≤ ns.foldl max top := by
  induction ns generalizing top with
  | nil => simp
  | cons m ns ih =>
    have h := ih (max top m)
    intro n hn
    rw [List.foldl_cons]
    rcases List.mem_cons.mp hn with rfl | hn
    · exact (le_max_left n m).trans (h _ List.mem_cons_self)
    · rcases List.mem_cons.mp hn with rfl | hn
      · exact (le_max_right top n).trans (h _ List.mem_cons_self)
      · exact h n (by simp [hn])

theorem missing_length {first : ℕ} {ns : List ℕ} (hnodup : (first :: ns).Nodup) :
    (missing first ns).length + ns.length + first = ns.foldl max first + ns.countP (· < first) := by
  have htop := le_foldl_max first ns
  have hbound := htop first (by simp)
  have hahead : (first :: ns.filter (first ≤ ·)).Nodup := by
    obtain ⟨hnew, hrest⟩ := List.nodup_cons.mp hnodup
    exact List.nodup_cons.mpr ⟨fun h ↦ hnew (List.mem_filter.mp h).1, hrest.filter _⟩
  have hperm : ((List.range' first (ns.foldl max first + 1 - first)).filter fun n ↦
      n ∈ first :: ns).Perm (first :: ns.filter (first ≤ ·)) := by
    refine (List.perm_ext_iff_of_nodup
      (List.Nodup.filter _ List.nodup_range') hahead).mpr fun n ↦ ?_
    rw [List.mem_filter, List.mem_range'_1, decide_eq_true_iff, List.mem_cons, List.mem_cons,
      List.mem_filter, decide_eq_true_iff]
    constructor
    · intro h
      obtain ⟨⟨hle, -⟩, hn⟩ := h
      exact hn.imp id fun hn ↦ ⟨hn, hle⟩
    · intro hn
      have hmem : n ∈ first :: ns := List.mem_cons.mpr (hn.imp id And.left)
      have hn' := htop n hmem
      refine ⟨⟨?_, by omega⟩, List.mem_cons.mp hmem⟩
      rcases hn with rfl | hn
      · exact le_rfl
      · exact hn.2
  have hsplit := List.length_eq_length_filter_add
    (l := List.range' first (ns.foldl max first + 1 - first))
    fun n ↦ decide (n ∈ first :: ns)
  have hrange : (List.range' first (ns.foldl max first + 1 - first)).length =
      ns.foldl max first + 1 - first :=
    List.length_range'
  have hin := hperm.length_eq
  have hout : missing first ns = (List.range' first (ns.foldl max first + 1 - first)).filter
      fun n ↦ !decide (n ∈ first :: ns) := by
    simp [missing]
  have hbelow : ns.length = (ns.filter (first ≤ ·)).length + ns.countP (· < first) := by
    rw [List.length_eq_length_filter_add (l := ns) fun n ↦ decide (first ≤ n),
      List.countP_eq_length_filter]
    congr 2
    refine List.filter_congr fun n _ ↦ ?_
    rw [← decide_not, decide_eq_decide]
    omega
  rw [List.length_cons] at hin
  rw [hout]
  omega

/-- However late the numbers come, what the receiver has lost and those below the first one are
those that never come and those that it calls reordered. -/
theorem receive_late {first : ℕ} {ns : List ℕ} (h : Near half first ns)
    (hnodup : (first :: ns).Nodup) :
    let r := ((first :: ns).map (· % (2 * half))).foldl (Receiver.note half) .init
    r.lost + ns.countP (· < first) = r.reordered + (missing first ns).length := by
  have hsum := note_near (r := ⟨some (first % (2 * half)), 0, 0⟩) rfl h
  have hmissing := missing_length hnodup
  have hinit :
      Receiver.init.note half (first % (2 * half)) = ⟨some (first % (2 * half)), 0, 0⟩ := rfl
  dsimp only at hsum ⊢
  rw [List.map_cons, List.foldl_cons, hinit]
  omega

end Late

end OpusFleet.Library.Serial
