import Mathlib.Data.List.Chain
import OpusFleet.Python.Dumps

namespace OpusFleet.Python

namespace Json

section Surrogates

def High (c : ℕ) : Prop := 0xD800 ≤ c ∧ c ≤ 0xDBFF

def Low (c : ℕ) : Prop := 0xDC00 ≤ c ∧ c ≤ 0xDFFF

/-- A string that JSON can carry: code points, and no surrogate pair left as two of them. -/
structure Unicode (s : Str) : Prop where
  points : ∀ c ∈ s, c < 0x110000
  unpaired : s.IsChain fun a b ↦ ¬(High a ∧ Low b)

theorem Unicode.of_ascii {s : Str} (h : Ascii s) : Unicode s where
  points c hc := (h c hc).trans (by decide)
  unpaired := by
    refine List.isChain_iff_getElem.mpr fun i hi hpair ↦ ?_
    have hlt := h _ (List.getElem_mem (Nat.lt_of_succ_lt hi))
    have hhigh := hpair.1.1
    omega

def utf16 (c : ℕ) : Str :=
  if c < 0x10000 then [c] else [0xD800 + (c - 0x10000) / 1024 % 1024, 0xDC00 + (c - 0x10000) % 1024]

theorem mergeSurrogates_pair {hi lo : ℕ} (h : High hi ∧ Low lo) (s : Str) :
    mergeSurrogates (hi :: lo :: s) =
      (0x10000 + (hi - 0xD800) * 1024 + (lo - 0xDC00)) :: mergeSurrogates s :=
  if_pos ⟨h.1.1, h.1.2, h.2.1, h.2.2⟩

theorem mergeSurrogates_cons {c : ℕ} {s : Str} (h : ∀ d ∈ s.head?, ¬(High c ∧ Low d)) :
    mergeSurrogates (c :: s) = c :: mergeSurrogates s := by
  cases s with
  | nil => rfl
  | cons d s =>
    rw [mergeSurrogates, if_neg]
    rintro ⟨h₁, h₂, h₃, h₄⟩
    exact h d rfl ⟨⟨h₁, h₂⟩, h₃, h₄⟩

theorem utf16_head {c d : ℕ} {s : Str} (h : d ∈ (utf16 c ++ s).head?) : d = c ∨ High d := by
  rw [utf16] at h
  split at h
  · exact .inl (Option.some.inj h).symm
  · obtain rfl := Option.some.inj h
    refine .inr ⟨Nat.le_add_right _ _, ?_⟩
    omega

theorem mergeSurrogates_utf16 {s : Str} (h : Unicode s) :
    mergeSurrogates (s.flatMap utf16) = s := by
  obtain ⟨hpoints, hunpaired⟩ := h
  induction s with
  | nil => rfl
  | cons c s ih =>
    obtain ⟨hc, hs⟩ := List.forall_mem_cons.mp hpoints
    obtain ⟨hhead, htail⟩ := List.isChain_cons.mp hunpaired
    have hrest := ih hs htail
    rw [List.flatMap_cons]
    conv_lhs => rw [utf16]
    split
    · have hnext : ∀ d ∈ (s.flatMap utf16).head?, ¬(High c ∧ Low d) := by
        intro d hd hpair
        cases s with
        | nil => cases hd
        | cons c' s =>
          rw [List.flatMap_cons] at hd
          rcases utf16_head hd with rfl | hhigh
          · exact hhead d rfl hpair
          · have hlow := hpair.2
            unfold High Low at *
            omega
      rw [List.singleton_append, mergeSurrogates_cons hnext, hrest]
    · have hpair : High (0xD800 + (c - 0x10000) / 1024 % 1024) ∧
          Low (0xDC00 + (c - 0x10000) % 1024) := by
        unfold High Low
        omega
      have hvalue : 0x10000 + (0xD800 + (c - 0x10000) / 1024 % 1024 - 0xD800) * 1024 +
          (0xDC00 + (c - 0x10000) % 1024 - 0xDC00) = c := by omega
      rw [List.cons_append, List.singleton_append, mergeSurrogates_pair hpair, hrest, hvalue]

theorem mergeSurrogates_head {c d : ℕ} {s : Str} (h : d ∈ (mergeSurrogates (c :: s)).head?) :
    d = c ∨ 0x10000 ≤ d := by
  cases s with
  | nil => exact .inl (Option.some.inj h).symm
  | cons d' s =>
    rw [mergeSurrogates] at h
    split at h
    · obtain rfl := Option.some.inj h
      exact .inr (by omega)
    · exact .inl (Option.some.inj h).symm

theorem mergeSurrogates_unicode {s : Str} (h : ∀ c ∈ s, c < 0x110000) :
    Unicode (mergeSurrogates s) := by
  fun_induction mergeSurrogates s with
  | case1 hi lo s hpair ih =>
    obtain ⟨hpoints, hunpaired⟩ := ih fun c hc ↦ h c (by simp [hc])
    refine ⟨List.forall_mem_cons.mpr ⟨by omega, hpoints⟩,
      List.isChain_cons.mpr ⟨fun d _ hd ↦ ?_, hunpaired⟩⟩
    have hhigh := hd.1.2
    omega
  | case2 hi lo s hpair ih =>
    obtain ⟨hhi, hrest⟩ := List.forall_mem_cons.mp h
    obtain ⟨hpoints, hunpaired⟩ := ih hrest
    refine ⟨List.forall_mem_cons.mpr ⟨hhi, hpoints⟩,
      List.isChain_cons.mpr ⟨fun d hd hd' ↦ ?_, hunpaired⟩⟩
    unfold High Low at hd'
    rcases mergeSurrogates_head hd with rfl | hbig
    · exact hpair ⟨hd'.1.1, hd'.1.2, hd'.2.1, hd'.2.2⟩
    · omega
  | case3 s hs =>
    refine ⟨h, ?_⟩
    match s with
    | [] => exact List.isChain_nil
    | [c] => exact List.isChain_singleton c
    | hi :: lo :: s => exact absurd rfl (hs hi lo s)

end Surrogates

section Escapes

theorem hexValue_hexDigit (n : ℕ) : hexValue (hexDigit (n % 16)) = some (n % 16) := by
  have hlt : n % 16 < 16 := Nat.mod_lt n (by decide)
  generalize n % 16 = d at hlt
  interval_cases d <;> rfl

theorem scanString_unicodeEscape (c : ℕ) (s : Str) :
    scanString (unicodeEscape c ++ s) = (scanString s).map fun r ↦ (c % 65536 :: r.1, r.2) := by
  have hcode : c / 4096 % 16 * 4096 + c / 256 % 16 * 256 + c / 16 % 16 * 16 + c % 16 =
      c % 65536 := by omega
  simp only [unicodeEscape, List.cons_append, List.nil_append, scanString, hexValue_hexDigit,
    Option.bind_eq_bind, Option.bind_some, hcode]
  cases scanString s <;> rfl

theorem scanString_plain {c : ℕ} (s : Str) (hquote : c ≠ 34) (hslash : c ≠ 92) (hlow : 32 ≤ c) :
    scanString (c :: s) = (scanString s).map fun r ↦ (c :: r.1, r.2) := by
  rw [scanString.eq_def]
  split
  · next h => cases h
  · next h => exact absurd (List.cons.inj h).1 hquote
  · next h => exact absurd (List.cons.inj h).1 hslash
  · next h => exact absurd (List.cons.inj h).1 hslash
  · next h =>
    obtain ⟨rfl, rfl⟩ := List.cons.inj h
    rw [if_neg (not_lt.mpr hlow)]
    cases scanString _ <;> rfl

theorem scanString_escapeAscii (c : ℕ) (s : Str) :
    scanString (escapeAscii c ++ s) = (scanString s).map fun r ↦ (utf16 c ++ r.1, r.2) := by
  unfold escapeAscii
  split
  iterate 7
    simp only [List.cons_append, List.nil_append, scanString, escaped]
    cases scanString s <;> rfl
  · next hquote hslash _ _ _ _ _ =>
    split
    · next hplain =>
      have hbmp : c < 0x10000 := by omega
      rw [utf16, if_pos hbmp]
      exact scanString_plain s hquote hslash hplain.1
    · rw [utf16]
      split
      · next hbmp =>
        rw [scanString_unicodeEscape, Nat.mod_eq_of_lt (by omega)]
        rfl
      · have hhigh : (0xD800 + (c - 0x10000) / 1024 % 1024) % 65536 =
            0xD800 + (c - 0x10000) / 1024 % 1024 := by
          omega
        have hlow : (0xDC00 + (c - 0x10000) % 1024) % 65536 = 0xDC00 + (c - 0x10000) % 1024 := by
          omega
        rw [List.append_assoc, scanString_unicodeEscape, scanString_unicodeEscape, hhigh, hlow]
        cases scanString s <;> simp

theorem scanString_quoted (s rest : Str) :
    scanString (s.flatMap escapeAscii ++ 34 :: rest) = some (s.flatMap utf16, rest) := by
  induction s with
  | nil => rfl
  | cons c s ih =>
    rw [List.flatMap_cons, List.append_assoc, scanString_escapeAscii, ih]
    rfl

theorem scanToken_quote {s : Str} (h : Unicode s) (rest : Str) :
    scanToken 34 (s.flatMap escapeAscii ++ 34 :: rest) = (.string s, rest) := by
  simp only [scanToken, scanString_quoted, mergeSurrogates_utf16 h]

theorem hexValue_lt {c n : ℕ} (h : hexValue c = some n) : n < 16 := by
  unfold hexValue at h
  split_ifs at h <;> cases h <;> omega

theorem escaped_lt {c d : ℕ} (h : escaped c = some d) : d < 0x110000 := by
  unfold escaped at h
  split at h <;> cases h <;> decide

theorem scanString_suffix {s t rest : Str} (h : scanString s = some (t, rest)) : rest <:+ s := by
  fun_induction scanString s generalizing t rest with
  | case1 => cases h
  | case2 s =>
    obtain ⟨rfl, rfl⟩ := Prod.mk.inj (Option.some.inj h)
    exact List.suffix_cons _ _
  | case3 a b c d s ih =>
    simp only [Option.pure_def, Option.bind_eq_bind, Option.bind_eq_some_iff] at h
    obtain ⟨_, _, _, _, _, _, _, _, ⟨u, r⟩, hr, he⟩ := h
    obtain ⟨rfl, rfl⟩ := Prod.mk.inj (Option.some.inj he)
    exact (ih hr).trans (List.suffix_append [92, 117, a, b, c, d] s)
  | case4 c s _ ih =>
    simp only [Option.pure_def, Option.bind_eq_bind, Option.bind_eq_some_iff] at h
    obtain ⟨_, _, ⟨u, r⟩, hr, he⟩ := h
    obtain ⟨rfl, rfl⟩ := Prod.mk.inj (Option.some.inj he)
    exact (ih hr).trans (List.suffix_append [92, c] s)
  | case5 => cases h
  | case6 c s _ _ _ _ ih =>
    simp only [Option.pure_def, Option.bind_eq_bind, Option.bind_eq_some_iff] at h
    obtain ⟨⟨u, r⟩, hr, he⟩ := h
    obtain ⟨rfl, rfl⟩ := Prod.mk.inj (Option.some.inj he)
    exact (ih hr).trans (List.suffix_cons c s)

theorem scanString_points {s t rest : Str} (hs : ∀ c ∈ s, c < 0x110000)
    (h : scanString s = some (t, rest)) :
    ∀ c ∈ t, c < 0x110000 := by
  fun_induction scanString s generalizing t rest with
  | case1 => cases h
  | case2 s =>
    obtain ⟨rfl, rfl⟩ := Prod.mk.inj (Option.some.inj h)
    exact List.forall_mem_nil _
  | case3 a b c d s ih =>
    simp only [Option.pure_def, Option.bind_eq_bind, Option.bind_eq_some_iff] at h
    obtain ⟨a', ha, b', hb, c', hc, d', hd, ⟨u, r⟩, hr, he⟩ := h
    obtain ⟨rfl, rfl⟩ := Prod.mk.inj (Option.some.inj he)
    have ha := hexValue_lt ha
    have hb := hexValue_lt hb
    have hc := hexValue_lt hc
    have hd := hexValue_lt hd
    exact List.forall_mem_cons.mpr ⟨by omega, ih (fun c hc ↦ hs c (by simp [hc])) hr⟩
  | case4 c s _ ih =>
    simp only [Option.pure_def, Option.bind_eq_bind, Option.bind_eq_some_iff] at h
    obtain ⟨c', hc, ⟨u, r⟩, hr, he⟩ := h
    obtain ⟨rfl, rfl⟩ := Prod.mk.inj (Option.some.inj he)
    exact List.forall_mem_cons.mpr ⟨escaped_lt hc, ih (fun c hc ↦ hs c (by simp [hc])) hr⟩
  | case5 => cases h
  | case6 c s _ _ _ _ ih =>
    simp only [Option.pure_def, Option.bind_eq_bind, Option.bind_eq_some_iff] at h
    obtain ⟨⟨u, r⟩, hr, he⟩ := h
    obtain ⟨rfl, rfl⟩ := Prod.mk.inj (Option.some.inj he)
    obtain ⟨hc, hs⟩ := List.forall_mem_cons.mp hs
    exact List.forall_mem_cons.mpr ⟨hc, ih hs hr⟩

end Escapes

end Json

theorem decode_points {bs : Bytes} {s : Str} (h : decode bs = some s) : ∀ c ∈ s, c < 0x110000 := by
  have hcont {b : UInt8} (hb : continuation b = true) : 0x80 ≤ b.toNat ∧ b.toNat ≤ 0xBF := by
    simpa [continuation, UInt8.le_iff_toNat_le] using hb
  have hmore {rest : Bytes} {c : ℕ} {s : Str} (hc : c < 0x110000)
      (ih : ∀ {s}, decode rest = some s →
        ∀ c ∈ s, c < 0x110000) (h : (decode rest).map (c :: ·) = some s) :
      ∀ c ∈ s, c < 0x110000 := by
    obtain ⟨t, ht, rfl⟩ := Option.map_eq_some_iff.mp h
    exact List.forall_mem_cons.mpr ⟨hc, ih ht⟩
  fun_induction decode bs generalizing s with
  | case1 =>
    obtain rfl := Option.some.inj h
    exact List.forall_mem_nil _
  | case2 a rest ha ih =>
    have hlt := a.toNat_lt
    exact hmore (by omega) ih h
  | case4 a ha b rest hlead hb ih =>
    have hlead := hlead.2
    rw [UInt8.le_iff_toNat_le] at hlead
    have hb := hcont hb
    have ha : (0xDF : UInt8).toNat = 0xDF := rfl
    exact hmore (by omega) ih h
  | case7 a ha b hlead c rest hlead' hcond ih =>
    have hlead := hlead'.2
    rw [UInt8.le_iff_toNat_le] at hlead
    have hb := hcont hcond.1
    have hc := hcont hcond.2.1
    have ha : (0xEF : UInt8).toNat = 0xEF := rfl
    exact hmore (by omega) ih h
  | case10 a ha b hlead c hlead' d rest hcond ih =>
    obtain ⟨-, hle, hb, hc, hd, -, hlast⟩ := hcond
    have hb := hcont hb
    have hc := hcont hc
    have hd := hcont hd
    rw [UInt8.le_iff_toNat_le] at hle
    have hmax : (0xF4 : UInt8).toNat = 0xF4 := rfl
    have hlast' : a.toNat = 0xF4 → b.toNat ≤ 0x8F := by
      intro ha
      have hb := hlast (UInt8.toNat_inj.mp ha)
      rwa [UInt8.le_iff_toNat_le] at hb
    exact hmore (by omega) ih h
  | case3 | case5 | case6 | case8 | case9 | case11 => cases h
end OpusFleet.Python
