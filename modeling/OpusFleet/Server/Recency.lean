import OpusFleet.Server.Listings

namespace OpusFleet.Server.Storage

open Python Library

section Order

theorem twoDigits_lt {m n : ℕ} (h : m < n) : twoDigits m < twoDigits n := by
  simp only [twoDigits, List.cons_lt_cons_iff, List.lt_irrefl, and_false, or_false]
  omega

theorem decimal_year {y : ℕ} (hlow : 1000 ≤ y) (hhigh : y ≤ 9999) :
    decimal y = twoDigits (y / 100) ++ twoDigits (y % 100) := by
  have hdigits : Nat.digits 10 y = [y % 10, y / 10 % 10, y / 100 % 10, y / 1000] := by
    have hten : 1 < 10 := by decide
    rw [Nat.digits_def' hten (by omega), Nat.digits_def' hten (by omega),
      Nat.digits_def' hten (by omega),
      Nat.digits_of_lt 10 _ (by omega) (by omega), Nat.div_div_eq_div_mul, Nat.div_div_eq_div_mul]
  rw [decimal, if_neg (by omega), hdigits]
  simp only [twoDigits, List.reverse_cons, List.reverse_nil, List.nil_append,
    List.cons_append, List.map_cons, List.map_nil, List.cons.injEq, true_and, and_true]
  omega

theorem decimal_year_lt {y y' : ℕ} (hlow : 1000 ≤ y) (hhigh : y' ≤ 9999) (h : y < y') :
    decimal y < decimal y' := by
  rw [decimal_year hlow (by omega), decimal_year (by omega) hhigh]
  refine Words.block_lt rfl ?_
  rcases Nat.lt_or_ge (y / 100) (y' / 100) with hcentury | hcentury
  · exact .inl (twoDigits_lt hcentury)
  · have hsame : y / 100 = y' / 100 := by omega
    exact .inr ⟨by rw [hsame], twoDigits_lt (by omega)⟩

theorem year_ge (t : ℚ≥0) : 1970 ≤ (gmtime t).date.year :=
  (Calendar.locate_spec Calendar.yearLength_pos (Nat.le_refl (⌊t⌋₊ / 86400))).1

theorem strftimeDate_lt {gm gm' : StructTime} (hlow : 1000 ≤ gm.date.year)
    (hhigh : gm'.date.year ≤ 9999)
    (h : gm.date.year < gm'.date.year ∨ gm.date.year = gm'.date.year ∧
    (gm.date.month < gm'.date.month ∨
      gm.date.month = gm'.date.month ∧ gm.date.day < gm'.date.day)) :
    strftimeDate gm < strftimeDate gm' := by
  simp only [strftimeDate, List.append_assoc]
  rcases h with h | ⟨hyear, h⟩
  · refine Words.block_lt ?_ (.inl (decimal_year_lt hlow hhigh h))
    rw [decimal_year hlow (by omega), decimal_year (by omega) hhigh]
    rfl
  · rw [hyear]
    refine List.append_left_lt (List.append_left_lt (Words.block_lt rfl ?_))
    rcases h with h | ⟨hmonth, h⟩
    · exact .inl (twoDigits_lt h)
    · exact .inr ⟨by rw [hmonth], List.append_left_lt (twoDigits_lt h)⟩

theorem strftimeTime_lt {gm gm' : StructTime} (h : gm.hour < gm'.hour ∨ gm.hour = gm'.hour ∧
    (gm.minute < gm'.minute ∨ gm.minute = gm'.minute ∧ gm.second < gm'.second)) :
    strftimeTime gm < strftimeTime gm' := by
  simp only [strftimeTime, List.append_assoc]
  refine Words.block_lt rfl ?_
  rcases h with h | ⟨hhour, h⟩
  · exact .inl (twoDigits_lt h)
  · refine .inr ⟨by rw [hhour], Words.block_lt rfl ?_⟩
    rcases h with h | ⟨hminute, h⟩
    · exact .inl (twoDigits_lt h)
    · exact .inr ⟨by rw [hminute], twoDigits_lt h⟩

/-- The keys of a device sort by the second at which the recording starts, as
long as its year has four digits. -/
theorem keyFor_lt {t t' : ℚ≥0} (hyear : (gmtime t).date.year ≤ 9999)
    (hyear' : (gmtime t').date.year ≤ 9999)
    (h : ⌊t⌋₊ < ⌊t'⌋₊) (imei : Str) (d d' : ℚ) (ext ext' : Str) :
    keyFor imei t d ext < keyFor imei t' d' ext' := by
  have hlow := year_ge t
  have hlow' := year_ge t'
  simp only [keyFor, List.append_assoc]
  refine List.append_left_lt (List.append_left_lt (Words.block_lt ?_ ?_))
  · simp only [strftimeDate, List.length_append, decimal_year (show 1000 ≤ _ by omega) hyear,
      decimal_year (show 1000 ≤ _ by omega) hyear']
    rfl
  · rcases Nat.lt_or_ge (⌊t⌋₊ / 86400) (⌊t'⌋₊ / 86400) with hday | hday
    · exact .inl (strftimeDate_lt (by omega) hyear' (Calendar.civil_lt hday))
    · have hsame : ⌊t⌋₊ / 86400 = ⌊t'⌋₊ / 86400 := by omega
      refine .inr ⟨by simp only [strftimeDate, gmtime, hsame],
        List.append_left_lt (Words.block_lt rfl (.inl ?_))⟩
      apply strftimeTime_lt
      simp only [gmtime]
      omega

end Order

section Listing

variable {store : SegmentStore} {segs : List Segment} {imei : Str}

/-- A listing of the objects below a prefix names each object once. -/
def Client.Once (client : Client) : Prop :=
  ∀ bucket head, ((client.listObjects bucket head true).map Object.objectName).Nodup

def keysOf (segs : List Segment) (imei : Str) : List Str :=
  ((segs.filter fun seg ↦ seg.imei = imei).map Segment.key).dedup

/-- The listing of a device: as many of its keys as there are, up to the limit, the latest of them,
latest first, and with each the whole seconds of its recording. -/
structure Newest (segs : List Segment) (imei : Str) (limit : ℤ) (items : List Item) : Prop where
  count : (items.length : ℤ) = min limit (keysOf segs imei).length
  distinct : (items.map Item.key).Nodup
  stored : ∀ it ∈ items, it.key ∈ keysOf segs imei
  order : items.Pairwise fun it it' ↦ ∀ seg ∈ segs, ∀ seg' ∈ segs, seg.key = it.key →
    seg'.key = it'.key →
    ⌊seg'.startedAt⌋₊ ≤ ⌊seg.startedAt⌋₊
  omitted : ∀ seg ∈ segs, seg.imei = imei → seg.key ∉ items.map Item.key →
    ∀ seg' ∈ segs, seg'.key ∈ items.map Item.key → ⌊seg.startedAt⌋₊ ≤ ⌊seg'.startedAt⌋₊
  duration : ∀ it ∈ items, ∀ seg ∈ segs, seg.key = it.key →
    it.duration = decimalInt (truncate seg.durationS) ++ lit "s"

theorem mem_keysOf {key : Str} :
    key ∈ keysOf segs imei ↔ ∃ seg ∈ segs, seg.imei = imei ∧ seg.key = key := by
  simp [keysOf, and_assoc]

theorem reverse_other {sep : ℕ} {b : Str} (hb : sep ∉ b) : ∀ c ∈ b.reverse, (c != sep) = true := by
  intro c hc
  have hne : c ≠ sep := fun heq ↦ hb (heq ▸ List.mem_reverse.mp hc)
  simpa using hne

theorem afterLast_append {sep : ℕ} {a b : Str} (hb : sep ∉ b) :
    afterLast sep (a ++ sep :: b) = b := by
  rw [afterLast, List.rtakeWhile, List.reverse_append, List.reverse_cons, List.append_assoc,
    List.takeWhile_append_of_pos (reverse_other hb)]
  simp

theorem beforeLast_append {sep : ℕ} {a b : Str} (hb : sep ∉ b) :
    beforeLast sep (a ++ sep :: b) = a := by
  rw [beforeLast, if_pos (by simp), List.rdropWhile, List.reverse_append, List.reverse_cons,
    List.append_assoc, List.dropWhile_append_of_pos (reverse_other hb)]
  simp

theorem item_duration (seg : Segment) (o : Object) (ho : o.objectName = seg.key) :
    (item store o).duration = decimalInt (truncate seg.durationS) ++ lit "s" := by
  obtain ⟨tail, htail⟩ : ∃ tail, tail = decimalInt (truncate seg.durationS) ++ lit "s." ++
      seg.ext.text := ⟨_, rfl⟩
  have hname : seg.name = strftimeTime (gmtime seg.startedAt) ++ 95 :: tail := by
    simp [htail, Segment.name, lit]
  have hkey : seg.key = seg.imei ++ 47 :: seg.date ++ 47 :: seg.name := by simp [seg.key_eq]
  have hunderscore : 95 ∉ tail := by
    have hdecimal : 95 ∉ decimalInt (truncate seg.durationS) :=
      fun h ↦ absurd (mem_decimalInt h) (by decide)
    have hext : 95 ∉ seg.ext.text := by cases seg.ext <;> decide
    simp [htail, lit, hdecimal, hext]
  have hdot : tail = decimalInt (truncate seg.durationS) ++ lit "s" ++ 46 :: seg.ext.text := by
    simp [htail, lit]
  have hext : 46 ∉ seg.ext.text := by cases seg.ext <;> decide
  have hafter : afterLast 47 o.objectName = seg.name := by
    rw [ho, hkey, afterLast_append seg.slash_notMem_name]
  simp only [item, hafter, if_pos seg.underscore_mem_name]
  rw [hname, afterLast_append hunderscore, hdot, beforeLast_append hext]

theorem sliceFrom_neg {α : Type*} {limit : ℤ} (hlimit : 1 ≤ limit) (xs : List α) :
    sliceFrom (-limit) xs = xs.drop (xs.length - limit.toNat) := by
  rw [sliceFrom, if_pos (by omega), Int.natAbs_neg]
  congr 2
  omega

section Sorted

variable (hids : ∀ seg ∈ segs, 47 ∉ seg.imei) (himei : 47 ∉ imei)

include hids himei in
theorem not_plants {seg : Segment} (hseg : seg ∈ segs) : ¬Plants imei seg := by
  rintro (⟨x, hx⟩ | hdir)
  · exact hids seg hseg (by simp [hx])
  · exact himei (by simp [hdir])

include hids himei in
theorem mem_names {key : Str} :
    key ∈ (store.client.listObjects (stored segs) (listed imei none) true).map Object.objectName ↔
      key ∈ keysOf segs imei := by
  rw [store.client.recursive, mem_keys_stored, mem_keysOf]
  constructor
  · rintro ⟨⟨seg, hseg, rfl⟩, hhead⟩
    exact ⟨seg, hseg, eq_of_not_plants (not_plants hids himei hseg) hhead, rfl⟩
  · rintro ⟨seg, hseg, rfl, rfl⟩
    exact ⟨⟨seg, hseg, rfl⟩, (head_prefix_key _ seg).mpr (.inl rfl)⟩

include hids himei in
theorem own_of_mem_keysOf {seg : Segment} (hseg : seg ∈ segs) (h : seg.key ∈ keysOf segs imei) :
    seg.imei = imei := by
  obtain ⟨own, hown, rfl, hkey⟩ := mem_keysOf.mp h
  refine eq_of_not_plants (not_plants hids himei hseg) ?_
  exact hkey ▸ (head_prefix_key _ own).mpr (.inl rfl)

variable (hyears : ∀ seg ∈ segs, (gmtime seg.startedAt).date.year ≤ 9999)

include hids himei hyears in
/-- In the order of the keys the recordings do not go back in time. -/
theorem start_le {seg seg' : Segment} (hseg : seg ∈ segs) (hseg' : seg' ∈ segs)
    (hown : seg.key ∈ keysOf segs imei)
    (hown' : seg'.key ∈ keysOf segs imei) (h : seg.key ≤ seg'.key) :
    ⌊seg.startedAt⌋₊ ≤ ⌊seg'.startedAt⌋₊ := by
  by_contra hlater
  have hsame : seg'.imei = seg.imei :=
    (own_of_mem_keysOf hids himei hseg' hown').trans (own_of_mem_keysOf hids himei hseg hown).symm
  have hlt : seg'.key < seg.key := by
    rw [Segment.key, Segment.key, ← hsame]
    exact keyFor_lt (hyears seg' hseg') (hyears seg hseg) (not_le.mp hlater) _ _ _ _ _
  exact not_le_of_gt hlt h

include hids himei in
theorem exists_sorted (store : SegmentStore) (honce : store.client.Once) {limit : ℤ}
    (hlimit : 1 ≤ limit) :
    ∃ objs : List Object,
      listSegments store (stored segs) imei none limit =
        (objs.drop (objs.length - limit.toNat)).reverse.map (item store) ∧
      objs.Pairwise (fun o o' ↦ o.objectName ≤ o'.objectName) ∧ (objs.map Object.objectName).Nodup ∧
      ∀ key, key ∈ objs.map Object.objectName ↔ key ∈ keysOf segs imei := by
  have hperm := List.perm_insertionSort (fun o o' : Object ↦ o.objectName ≤ o'.objectName)
    (store.client.listObjects (stored segs) (listed imei none) true)
  refine ⟨_, by rw [listSegments, sliceFrom_neg hlimit], ?_, ?_, fun key ↦ ?_⟩
  · have htotal : Std.Total fun o o' : Object ↦ o.objectName ≤ o'.objectName :=
      ⟨fun o o' ↦ le_total o.objectName o'.objectName⟩
    have htrans : IsTrans Object fun o o' ↦ o.objectName ≤ o'.objectName := ⟨fun _ _ _ ↦ le_trans⟩
    exact List.pairwise_insertionSort _ _
  · exact ((hperm.map _).nodup_iff).mpr (honce _ _)
  · exact (hperm.map _).mem_iff.trans (mem_names hids himei)

end Sorted

/-- The listing of a device shows its newest recordings, newest first. -/
theorem listSegments_newest (store : SegmentStore) (honce : store.client.Once)
    {segs : List Segment} {imei : Str} (himei : 47 ∉ imei) (hids : ∀ seg ∈ segs, 47 ∉ seg.imei)
    (hyears : ∀ seg ∈ segs, (gmtime seg.startedAt).date.year ≤ 9999) {limit : ℤ}
    (hlimit : 1 ≤ limit) :
    Newest segs imei limit (listSegments store (stored segs) imei none limit) := by
  obtain ⟨objs, hitems, hsorted, hnodup, hmem⟩ := exists_sorted hids himei store honce hlimit
  have hlength : objs.length = (keysOf segs imei).length := by
    rw [← List.length_map (f := Object.objectName)]
    exact ((List.perm_ext_iff_of_nodup hnodup (List.nodup_dedup _)).mpr hmem).length_eq
  obtain ⟨skipped, hskipped⟩ : ∃ n, n = objs.length - limit.toNat := ⟨_, rfl⟩
  have hkeys (key : Str) : key ∈ (listSegments store (stored segs) imei none limit).map Item.key ↔
      key ∈ (objs.drop skipped).map Object.objectName := by
    rw [hitems, hskipped, List.map_map, List.map_reverse, List.mem_reverse]
    rfl
  have hown {o : Object} (ho : o ∈ objs) {seg : Segment} (hkey : seg.key = o.objectName) :
      seg.key ∈ keysOf segs imei := (hmem _).mp (hkey ▸ List.mem_map_of_mem ho)
  constructor
  · rw [hitems, List.length_map, List.length_reverse, List.length_drop, ← hlength]
    omega
  · rw [hitems, List.map_map, List.map_reverse, List.nodup_reverse]
    exact hnodup.sublist ((List.drop_sublist _ _).map _)
  · intro it hit
    rw [hitems] at hit
    obtain ⟨o, ho, rfl⟩ := List.mem_map.mp hit
    exact (hmem _).mp (List.mem_map_of_mem (List.mem_of_mem_drop (List.mem_reverse.mp ho)))
  · rw [hitems, List.pairwise_map, List.pairwise_reverse]
    refine (hsorted.sublist (List.drop_sublist _ _)).imp_of_mem fun {o o'} ho ho' hle ↦ ?_
    intro seg hseg seg' hseg' hkey hkey'
    have hle' : seg'.key ≤ seg.key := by rw [hkey, hkey']; exact hle
    exact start_le hids himei hyears hseg' hseg (hown (List.mem_of_mem_drop ho) hkey')
      (hown (List.mem_of_mem_drop ho') hkey) hle'
  · intro seg hseg himei' hout seg' hseg' hin
    have hkey : seg.key ∈ keysOf segs imei := mem_keysOf.mpr ⟨seg, hseg, himei', rfl⟩
    rw [hkeys] at hout hin
    obtain ⟨o', ho', hkey'⟩ := List.mem_map.mp hin
    obtain ⟨o, ho, hokey⟩ := List.mem_map.mp ((hmem _).mpr hkey)
    have hfront : o ∈ objs.take skipped := by
      rw [← List.take_append_drop skipped objs] at ho
      exact (List.mem_append.mp ho).resolve_right fun h ↦ hout (hokey ▸ List.mem_map_of_mem h)
    have hcut := List.pairwise_append.mp ((List.take_append_drop skipped objs).symm ▸ hsorted)
    have hle : seg.key ≤ seg'.key := by
      rw [← hokey, ← hkey']
      exact hcut.2.2 o hfront o' ho'
    exact start_le hids himei hyears hseg hseg' hkey
      (hown (List.mem_of_mem_drop ho') hkey'.symm) hle
  · intro it hit seg hseg hkey
    rw [hitems] at hit
    obtain ⟨o, ho, rfl⟩ := List.mem_map.mp hit
    exact item_duration seg o hkey.symm

theorem plain_once : Client.plain.Once := by
  intro bucket head
  simp only [Client.plain, if_true, List.map_map]
  exact bucket.nodup.sublist (List.filter_sublist.map Prod.fst)

theorem listSegments_newest_two :
    Newest [⟨lit "A", [1], 1704067199.5, 59.98, .opus⟩, ⟨lit "A", [2], 1704067200, 7, .wav⟩]
      (lit "A") 1
      (listSegments ⟨.plain, 3600⟩
        (stored [⟨lit "A", [1], 1704067199.5, 59.98, .opus⟩, ⟨lit "A", [2], 1704067200, 7, .wav⟩])
        (lit "A") none 1) :=
  listSegments_newest ⟨.plain, 3600⟩ plain_once (by decide) (by decide) (by decide +kernel)
    (by decide)

end Listing

end OpusFleet.Server.Storage
