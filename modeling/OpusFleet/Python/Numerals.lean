import OpusFleet.Python.Doubles

namespace OpusFleet.Python

open Library Rfc8259

namespace Json

section Values

theorem digitsValue_concat (s : Str) (d : ℕ) :
    digitsValue (s ++ [d]) = 10 * digitsValue s + (d - 48) :=
  List.foldl_concat ..

theorem digitsValue_append (s t : Str) :
    digitsValue (s ++ t) = digitsValue s * 10 ^ t.length + digitsValue t := by
  induction t using List.reverseRecOn with
  | nil => simp [digitsValue]
  | append_singleton t d ih =>
    rw [← List.append_assoc, digitsValue_concat, digitsValue_concat, ih,
      List.length_append, pow_add]
    simp only [List.length_singleton, pow_one]
    ring

theorem digitsValue_zeros (n : ℕ) : digitsValue (List.replicate n 48) = 0 := by
  induction n with
  | zero => rfl
  | succ n ih => rw [List.replicate_succ', digitsValue_concat, ih]

theorem digitsValue_zero_cons (s : Str) : digitsValue (48 :: s) = digitsValue s := rfl

theorem digitsValue_decimal (n : ℕ) : digitsValue (decimal n) = n := by
  have hvalue (s : Str) : digitsValue s = ofDecimal s := by
    induction s using List.reverseRecOn with
    | nil => rfl
    | append_singleton s d ih =>
      rw [digitsValue_concat, ih, ofDecimal, ofDecimal, List.map_append, List.reverse_append]
      simp only [List.map_cons, List.map_nil, List.reverse_singleton, List.singleton_append,
        Nat.ofDigits_cons]
      exact Nat.add_comm _ _
  rw [hvalue, ofDecimal_decimal]

theorem toFloat_congr {m m' : ℕ} {e e' : ℤ} (h : (m : ℚ) * 10 ^ e = m' * 10 ^ e')
    (negative : Bool) :
    toFloat negative m e = toFloat negative m' e' := by
  rw [toFloat_eq, toFloat_eq, h]

end Values

section Scan

variable {s t rest whole : Str}

def Stops (s : Str) : Prop := ∀ c ∈ s.head?, isDigit c = false

def Follows (s : Str) : Prop := ∀ c ∈ s.head?, c = 44 ∨ c = 93 ∨ c = 125

theorem Follows.stops (h : Follows rest) : Stops rest := by
  intro c hc
  rcases h c hc with rfl | rfl | rfl <;> decide

theorem stops_cons {c : ℕ} (h : isDigit c = false) (s : Str) : Stops (c :: s) := by
  intro d hd
  obtain rfl := Option.some.inj hd
  exact h

theorem isDigit_iff (c : ℕ) : isDigit c = true ↔ Digit c := by simp [isDigit, Digit]

theorem takeWhile_digits (hs : ∀ c ∈ s, Digit c) (ht : Stops t) :
    (s ++ t).takeWhile isDigit = s := by
  have htail : t.takeWhile isDigit = [] := by
    cases t with
    | nil => rfl
    | cons c t => simp [ht c rfl]
  rw [List.takeWhile_append_of_pos fun c hc ↦ (isDigit_iff c).mpr (hs c hc), htail, List.append_nil]

theorem dropWhile_digits (hs : ∀ c ∈ s, Digit c) (ht : Stops t) :
    (s ++ t).dropWhile isDigit = t := by
  have htail : t.dropWhile isDigit = t := by
    cases t with
    | nil => rfl
    | cons c t => simp [ht c rfl]
  rw [List.dropWhile_append_of_pos fun c hc ↦ (isDigit_iff c).mpr (hs c hc), htail]

theorem scan_whole (hw : Whole whole) (ht : Stops t) :
    (if (whole ++ t).head? = some 48 then [48] else (whole ++ t).takeWhile isDigit) = whole := by
  cases hw with
  | zero => rfl
  | digits hd hne hds =>
    rw [takeWhile_digits (List.forall_mem_cons.mpr ⟨hd, hds⟩) ht, if_neg]
    simpa using hne

theorem scanFraction_absent (h : ∀ c ∈ t.head?, c ≠ 46) : scanFraction t = ([], t) := by
  unfold scanFraction
  split
  · exact absurd rfl (h 46 rfl)
  · rfl

theorem scanFraction_digits (hne : s ≠ []) (hs : ∀ c ∈ s, Digit c) (ht : Stops t) :
    scanFraction (46 :: (s ++ t)) = (s, t) := by
  rw [scanFraction, List.span_eq_takeWhile_dropWhile, takeWhile_digits hs ht,
    dropWhile_digits hs ht, if_neg (by simpa using hne)]

theorem scanExponent_absent (h : ∀ c ∈ t.head?, c ≠ 101 ∧ c ≠ 69) : scanExponent t = (none, t) := by
  cases t with
  | nil => rfl
  | cons c t =>
    obtain ⟨hlow, hhigh⟩ := h c rfl
    rw [scanExponent, if_neg]
    rintro ⟨rfl | rfl, -⟩ <;> contradiction

theorem scanExponent_digits (negative : Bool) (hne : s ≠ []) (hs : ∀ c ∈ s, Digit c)
    (ht : Stops t) :
    scanExponent (101 :: (if negative then 45 else 43) :: (s ++ t)) =
      (some (if negative then -(digitsValue s : ℤ) else digitsValue s), t) := by
  have hsign : scanSign ((if negative then 45 else 43) :: (s ++ t)) = (negative, s ++ t) := by
    cases negative <;> rfl
  rw [scanExponent, hsign, takeWhile_digits hs ht, dropWhile_digits hs ht, if_pos]
  exact ⟨.inl rfl, by simpa using hne⟩

theorem scanNumber_int (negative : Bool) (hw : Whole whole) (hlen : whole.length ≤ maxStrDigits)
    (ht : Follows rest) :
    scanNumber negative (whole ++ rest) =
      some (.int (if negative then -(digitsValue whole : ℤ) else digitsValue whole), rest) := by
  have hne : whole.isEmpty = false := by cases hw <;> rfl
  have hfraction : scanFraction rest = ([], rest) := by
    refine scanFraction_absent fun c hc ↦ ?_
    rcases ht c hc with rfl | rfl | rfl <;> decide
  have hexponent : scanExponent rest = (none, rest) := by
    refine scanExponent_absent fun c hc ↦ ?_
    rcases ht c hc with rfl | rfl | rfl <;> decide
  simp only [scanNumber, scan_whole hw ht.stops, List.drop_left, hfraction, hexponent]
  simp [hne, not_lt.mpr hlen]

theorem scanNumber_float (negative : Bool) {fraction u : Str} {exponent : Option ℤ}
    (hw : Whole whole) (ht : Stops t) (hfraction : scanFraction t = (fraction, u))
    (hexponent : scanExponent u = (exponent, rest)) (hfloat : fraction ≠ [] ∨ exponent ≠ none) :
    scanNumber negative (whole ++ t) =
      some (.float (toFloat negative (digitsValue (whole ++ fraction))
        (exponent.getD 0 - fraction.length)),
        rest) := by
  have hne : whole.isEmpty = false := by cases hw <;> rfl
  have hfloat' : ¬(fraction.isEmpty = true ∧ exponent.isNone = true) := by
    rintro ⟨hfraction, hexponent⟩
    rcases hfloat with h | h
    · exact h (List.isEmpty_iff.mp hfraction)
    · exact h (Option.isNone_iff_eq_none.mp hexponent)
  simp only [scanNumber, scan_whole hw ht, List.drop_left, hfraction, hexponent, hne,
    hfloat', if_false]
  rfl

theorem scanNumber_fraction (negative : Bool) {fraction : Str} (hw : Whole whole)
    (hne : fraction ≠ []) (hf : ∀ c ∈ fraction, Digit c) (ht : Follows rest) :
    scanNumber negative (whole ++ 46 :: (fraction ++ rest)) =
      some (.float (toFloat negative (digitsValue (whole ++ fraction)) (-fraction.length)),
        rest) := by
  have hexponent : scanExponent rest = (none, rest) := by
    refine scanExponent_absent fun c hc ↦ ?_
    rcases ht c hc with rfl | rfl | rfl <;> decide
  rw [scanNumber_float negative hw (stops_cons (by decide) _)
    (scanFraction_digits hne hf ht.stops) hexponent
    (.inl hne), Option.getD_none, zero_sub]

theorem scanExponent_padded (point : ℤ) (ht : Follows rest) :
    scanExponent (101 :: (if point < 1 then 45
      else 43) :: ((if (decimal (point - 1).natAbs).length < 2 then
      48 :: decimal (point - 1).natAbs else decimal (point - 1).natAbs) ++ rest)) =
        (some (point - 1), rest) := by
  obtain ⟨hne, hdigits⟩ := padded_digits (point - 1).natAbs
  have hvalue : digitsValue (if (decimal (point - 1).natAbs).length < 2
    then 48 :: decimal (point - 1).natAbs
      else decimal (point - 1).natAbs) = (point - 1).natAbs := by
    split
    · rw [digitsValue_zero_cons, digitsValue_decimal]
    · exact digitsValue_decimal _
  have hscan := scanExponent_digits (point < 1) hne hdigits ht.stops
  rw [hvalue] at hscan
  simp only [decide_eq_true_eq] at hscan
  rw [hscan, Prod.mk.injEq, Option.some.injEq]
  refine ⟨?_, rfl⟩
  split <;> omega

section Layouts

variable {d : ℕ} {ds : Str} {point : ℤ} (negative : Bool) (hd : Digit d) (hne : d ≠ 48)
    (hds : ∀ c ∈ ds, Digit c)
  (ht : Follows rest)

include hd hne hds ht

theorem scanNumber_scientific (h : point ≤ -4 ∨ 16 < point) :
    scanNumber negative (layOut (d :: ds) point ++ rest) =
      some (.float (toFloat negative (digitsValue (d :: ds)) (point - (d :: ds).length)),
        rest) := by
  have hwhole : Whole [d] := .digits hd hne (List.forall_mem_nil _)
  have hexponent := scanExponent_padded point ht
  rw [layOut, if_pos h]
  generalize hu : 101 :: (if point < 1 then 45
    else 43) :: ((if (decimal (point - 1).natAbs).length < 2 then
    48 :: decimal (point - 1).natAbs else decimal (point - 1).natAbs) ++ rest) = u at hexponent
  have hstops : Stops u := hu ▸ stops_cons (by decide) _
  have hdot : ∀ c ∈ u.head?, c ≠ 46 := by
    rw [← hu]
    simp
  cases ds with
  | nil =>
    have hscan :=
      scanNumber_float negative hwhole hstops (scanFraction_absent hdot) hexponent (.inr (by simp))
    subst hu
    simpa using hscan
  | cons d' ds =>
    have hscan := scanNumber_float negative hwhole (stops_cons (by decide) _)
      (scanFraction_digits (List.cons_ne_nil _ _) hds hstops) hexponent (.inr (by simp))
    subst hu
    simpa [sub_sub, add_comm, add_left_comm] using hscan

omit hne in
theorem scanNumber_leadingZeros (h : ¬(point ≤ -4 ∨ 16 < point)) (hpoint : point ≤ 0) :
    scanNumber negative (layOut (d :: ds) point ++ rest) =
      some (.float (toFloat negative (digitsValue (d :: ds)) (point - (d :: ds).length)),
        rest) := by
  have hdigits : digitsValue ([48] ++ (List.replicate (-point).toNat 48 ++ d :: ds)) =
      digitsValue (d :: ds) := by
    rw [List.singleton_append, digitsValue_zero_cons, digitsValue_append, digitsValue_zeros,
      zero_mul, zero_add]
  have hfraction : ∀ c ∈ List.replicate (-point).toNat 48 ++ d :: ds, Digit c :=
    List.forall_mem_append.mpr ⟨zeros_digits _, List.forall_mem_cons.mpr ⟨hd, hds⟩⟩
  have hscan :=
    scanNumber_fraction negative .zero (List.append_ne_nil_of_right_ne_nil _ (List.cons_ne_nil _ _))
    hfraction ht
  rw [hdigits, List.length_append, List.length_replicate] at hscan
  rw [show point - (d :: ds).length = -((-point).toNat + (d :: ds).length : ℕ) by omega,
    layOut, if_neg h, if_pos hpoint]
  exact hscan

theorem scanNumber_trailingZeros (h : ¬(point ≤ -4 ∨ 16 < point)) (hpoint : ¬point ≤ 0)
    (hlong : (d :: ds).length ≤ point.toNat) :
    scanNumber negative (layOut (d :: ds) point ++ rest) =
      some (.float (toFloat negative (digitsValue (d :: ds)) (point - (d :: ds).length)),
        rest) := by
  obtain ⟨k, hk⟩ : ∃ k : ℕ, point - (d :: ds).length = k :=
    ⟨(point - (d :: ds).length).toNat, by omega⟩
  have hzeros : point.toNat - (d :: ds).length = k := by omega
  have hwhole : Whole (d :: (ds ++ List.replicate k 48)) :=
    .digits hd hne (List.forall_mem_append.mpr ⟨hds, zeros_digits _⟩)
  have hscan := scanNumber_fraction negative hwhole (List.cons_ne_nil 48 []) (by decide) ht
  have hvalue : ((digitsValue (d :: (ds ++ List.replicate k 48) ++ [48]) : ℕ) : ℚ) *
    10 ^ (-([48] : Str).length : ℤ) =
      digitsValue (d :: ds) * 10 ^ (k : ℤ) := by
    rw [digitsValue_concat, ← List.cons_append, digitsValue_append, digitsValue_zeros,
      List.length_replicate, List.length_singleton, Nat.cast_one, zpow_neg_one, zpow_natCast]
    push_cast
    ring
  rw [toFloat_congr hvalue, ← hk] at hscan
  rw [layOut, if_neg h, if_neg hpoint, if_pos hlong, hzeros]
  simpa using hscan

theorem scanNumber_pointInside (h : ¬(point ≤ -4 ∨ 16 < point)) (hpoint : ¬point ≤ 0)
    (hlong : ¬(d :: ds).length ≤ point.toNat) :
    scanNumber negative (layOut (d :: ds) point ++ rest) =
      some (.float (toFloat negative (digitsValue (d :: ds)) (point - (d :: ds).length)),
        rest) := by
  rw [layOut, if_neg h, if_neg hpoint, if_neg hlong]
  obtain ⟨n, hn⟩ : ∃ n, point.toNat = n + 1 := ⟨point.toNat - 1, by omega⟩
  have hwhole : Whole (d :: ds.take n) := .digits hd hne fun c hc ↦ hds c (List.mem_of_mem_take hc)
  rw [hn, List.length_cons] at hlong
  have hfraction : ∀ c ∈ ds.drop n, Digit c := fun c hc ↦ hds c (List.mem_of_mem_drop hc)
  have hscan := scanNumber_fraction negative hwhole
    (List.ne_nil_of_length_pos (by rw [List.length_drop]; omega)) hfraction ht
  have hdigits : d :: ds.take n ++ ds.drop n = d :: ds := by
    rw [List.cons_append, List.take_append_drop]
  rw [hdigits, List.length_drop] at hscan
  rw [show point - (d :: ds).length = -(ds.length - n : ℕ) by rw [List.length_cons]; omega, hn]
  simpa using hscan

theorem scanNumber_layOut (point : ℤ) :
    scanNumber negative (layOut (d :: ds) point ++ rest) =
      some (.float (toFloat negative (digitsValue (d :: ds)) (point - (d :: ds).length)),
        rest) := by
  by_cases h : point ≤ -4 ∨ 16 < point
  · exact scanNumber_scientific negative hd hne hds ht h
  · by_cases hpoint : point ≤ 0
    · exact scanNumber_leadingZeros negative hd hds ht h hpoint
    · by_cases hlong : (d :: ds).length ≤ point.toNat
      · exact scanNumber_trailingZeros negative hd hne hds ht h hpoint hlong
      · exact scanNumber_pointInside negative hd hne hds ht h hpoint hlong

end Layouts

end Scan

section Numbers

variable {rest : Str}

theorem digitsValue_rdropWhile (s : Str) :
    digitsValue s = digitsValue (s.rdropWhile (· = 48)) * 10 ^
      (s.length - (s.rdropWhile (· = 48)).length) ∧
      (s.rdropWhile (· = 48)).length ≤ s.length := by
  have hsplit := List.rdropWhile_append_rtakeWhile (p := (· = 48)) (l := s)
  have hzeros : s.rtakeWhile (· = 48) = List.replicate (s.rtakeWhile (· = 48)).length 48 :=
    List.eq_replicate_iff.mpr ⟨rfl, fun c hc ↦ by simpa using List.mem_rtakeWhile_imp hc⟩
  have hlen := congrArg List.length hsplit
  rw [List.length_append] at hlen
  refine ⟨?_, by omega⟩
  conv_lhs => rw [← hsplit, digitsValue_append, hzeros, digitsValue_zeros]
  rw [List.length_replicate, add_zero, show (s.rtakeWhile (· = 48)).length =
    s.length - (s.rdropWhile (· = 48)).length by omega]

/-- `repr` of a double reads as the double. -/
theorem scanNumber_reprPos {q : ℚ} (hq : 0 < q) (hs : (PyFloat.finite q).Sound) (negative : Bool)
    (ht : Follows rest) :
    scanNumber negative (reprPos q ++ rest) =
      some (.float (.finite (if negative then -q else q)), rest) := by
  obtain ⟨d, ds, hdecimal, hd, hne, hds⟩ := decimal_pos (shortest_pos hq)
  obtain ⟨ds', hdrop, hsub⟩ := rdropWhile_cons ds hne
  obtain ⟨hvalue, hlen⟩ := digitsValue_rdropWhile (decimal (shortest q).1)
  rw [digitsValue_decimal] at hvalue
  rw [hdecimal, hdrop, ← hdecimal] at hvalue hlen
  have hscan := scanNumber_layOut negative hd hne (fun c hc ↦ hds c (hsub c hc)) ht
    ((decimal (shortest q).1).length + (shortest q).2)
  have hscale : (digitsValue (d :: ds') : ℚ) *
      10 ^ ((decimal (shortest q).1).length + (shortest q).2 - (d :: ds').length) =
      (shortest q).1 * 10 ^ (shortest q).2 := by
    obtain ⟨k, hk⟩ := Nat.exists_eq_add_of_le hlen
    rw [hk, Nat.add_sub_cancel_left] at hvalue
    conv_rhs => rw [hvalue]
    rw [hk, show (((d :: ds').length + k : ℕ) : ℤ) + (shortest q).2 - (d :: ds').length =
      k + (shortest q).2 by omega, zpow_add₀ (by norm_num), zpow_natCast]
    push_cast
    ring
  have hread : toFloat negative (shortest q).1 (shortest q).2 =
      .finite (if negative then -q else q) := by
    have hread := shortest_reads hq hs
    rw [toFloat_eq] at hread ⊢
    exact PyFloat.signed_of_false hq hread negative
  have hrepr : reprPos q =
      layOut (d :: ds') ((decimal (shortest q).1).length + (shortest q).2) := by
    rw [reprPos, hdecimal, hdrop]
  rw [hrepr, hscan, toFloat_congr hscale, hread]

theorem scanNumber_decimal (negative : Bool) {n : ℕ} (hlen : (decimal n).length ≤ maxStrDigits)
    (ht : Follows rest) :
    scanNumber negative (decimal n ++ rest) = some (.int (if negative then -n else n), rest) := by
  rw [scanNumber_int negative (decimal_whole n) hlen ht, digitsValue_decimal]

theorem decimal_length_le {n k : ℕ} (hk : 0 < k) (h : n < 10 ^ k) : (decimal n).length ≤ k := by
  rw [decimal]
  split
  · exact hk
  · rw [List.length_map, List.length_reverse]
    exact (Nat.digits_length_le_iff (by decide) n).mpr h

theorem digitsValue_lt {s : Str} (h : ∀ c ∈ s, Digit c) : digitsValue s < 10 ^ s.length := by
  induction s using List.reverseRecOn with
  | nil => exact Nat.one_pos
  | append_singleton s d ih =>
    have hs := ih fun c hc ↦ h c (by simp [hc])
    have hd := h d (by simp)
    unfold Digit at hd
    rw [digitsValue_concat, List.length_append, List.length_singleton, pow_succ]
    omega

theorem scanFraction_suffix (s : Str) : (scanFraction s).2 <:+ s := by
  unfold scanFraction
  split
  · split
    · exact List.suffix_rfl
    · rw [List.span_eq_takeWhile_dropWhile]
      exact (List.dropWhile_suffix _).trans (List.suffix_cons _ _)
  · exact List.suffix_rfl

theorem scanSign_suffix (s : Str) : (scanSign s).2 <:+ s := by
  unfold scanSign
  split
  · exact List.suffix_cons _ _
  · exact List.suffix_cons _ _
  · exact List.suffix_rfl

theorem scanExponent_suffix (s : Str) : (scanExponent s).2 <:+ s := by
  unfold scanExponent
  split
  · next c rest =>
    dsimp only
    split
    · exact ((List.dropWhile_suffix _).trans (scanSign_suffix rest)).trans (List.suffix_cons _ _)
    · exact List.suffix_rfl
  · exact List.suffix_rfl

/-- What is scanned as a number is an integer `int` takes or a double, and what
is left is the end of the text. -/
theorem scanNumber_sound {negative : Bool} {s : Str} {v : Value}
    (h : scanNumber negative s = some (v, rest)) :
    ((∃ i : ℤ, v = .int i ∧ (decimal i.natAbs).length ≤ maxStrDigits) ∨
      ∃ f : PyFloat, v = .float f ∧ f.Sound) ∧
      rest <:+ s := by
  unfold scanNumber at h
  dsimp only at h
  have hdigits : ∀ c ∈ if s.head? = some 48 then [48] else s.takeWhile isDigit, Digit c := by
    split
    · decide
    · exact fun c hc ↦ (isDigit_iff c).mp (List.mem_takeWhile_imp hc)
  generalize (if s.head? = some 48 then [48] else s.takeWhile isDigit) = whole at h hdigits
  have hsuffix := ((scanExponent_suffix _).trans (scanFraction_suffix _)).trans
    (List.drop_suffix whole.length s)
  split at h
  · cases h
  · next hne =>
    split at h
    · split at h
      · cases h
      · next hlen =>
        obtain ⟨rfl, rfl⟩ := Prod.mk.inj (Option.some.inj h)
        refine ⟨.inl ⟨_, rfl, ?_⟩, hsuffix⟩
        have habs : (if negative then -(digitsValue whole : ℤ) else digitsValue whole).natAbs =
            digitsValue whole := by
          split <;> simp
        have hpos : 0 < whole.length := List.length_pos_of_ne_nil (by simpa using hne)
        rw [habs]
        exact (decimal_length_le hpos (digitsValue_lt hdigits)).trans (not_lt.mp hlen)
    · obtain ⟨rfl, rfl⟩ := Prod.mk.inj (Option.some.inj h)
      exact ⟨.inr ⟨_, rfl, toFloat_sound _ _ _⟩, hsuffix⟩

end Numbers

end Json

end OpusFleet.Python
