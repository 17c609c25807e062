import Mathlib.Data.List.DropRight
import OpusFleet.Server.Recency

namespace OpusFleet.Server.Storage

open Python Library

variable {segs : List Segment} {imei : Str}

section Listing

theorem exists_keys (store : SegmentStore) (honce : store.client.Once)
    (segs : List Segment) (imei : Str) (date : Option Str) {limit : ℤ} (hlimit : 1 ≤ limit) :
    ∃ keys : List Str, keys.Pairwise (· < ·) ∧
      (∀ key, key ∈ keys ↔ (∃ seg ∈ segs, seg.key = key) ∧ listed imei date <+: key) ∧
      (listSegments store (stored segs) imei date limit).map Item.key =
      (keys.rtake limit.toNat).reverse := by
  obtain ⟨objs, hobjs⟩ : ∃ objs, objs =
    (store.client.listObjects (stored segs) (listed imei date) true).insertionSort
      fun o o' ↦ o.objectName ≤ o'.objectName := ⟨_, rfl⟩
  have hperm := (List.perm_insertionSort (fun o o' : Object ↦ o.objectName ≤ o'.objectName)
    (store.client.listObjects (stored segs) (listed imei date) true)).map Object.objectName
  rw [← hobjs] at hperm
  refine ⟨objs.map Object.objectName, ?_, fun key ↦ ?_, ?_⟩
  · have htotal : Std.Total fun o o' : Object ↦ o.objectName ≤ o'.objectName :=
      ⟨fun o o' ↦ le_total o.objectName o'.objectName⟩
    have htrans : IsTrans Object fun o o' ↦ o.objectName ≤ o'.objectName := ⟨fun _ _ _ ↦ le_trans⟩
    have hsorted : objs.Pairwise fun o o' ↦ o.objectName ≤ o'.objectName :=
      hobjs ▸ List.pairwise_insertionSort _ _
    have hnodup := hperm.nodup_iff.mpr (honce _ _)
    exact ((List.pairwise_map.mpr hsorted).and hnodup).imp fun h ↦ lt_of_le_of_ne h.1 h.2
  · rw [hperm.mem_iff, store.client.recursive, mem_keys_stored]
  · rw [listSegments, sliceFrom_neg hlimit, ← hobjs, List.rtake, List.length_map,
      ← List.map_drop, List.map_map, ← List.map_reverse]
    rfl

/-- A listing that the limit does not cut has all the keys below its
directory, the last of them first. -/
theorem listing_whole (store : SegmentStore) (honce : store.client.Once) (date : Option Str)
    (own : Segment → Prop)
    [DecidablePred own] (hown : ∀ seg ∈ segs, listed imei date <+: seg.key → own seg) {limit : ℤ}
    (hlimit : 1 ≤ limit) (hcount : ((segs.filter own).length : ℤ) ≤ limit) :
    ((listSegments store (stored segs) imei date limit).map Item.key).Pairwise (· > ·) ∧
      ∀ key, key ∈ (listSegments store (stored segs) imei date limit).map Item.key ↔
        (∃ seg ∈ segs, seg.key = key) ∧ listed imei date <+: key := by
  obtain ⟨keys, hsorted, hmem, hlisted⟩ := exists_keys store honce segs imei date hlimit
  have hsub : keys ⊆ (segs.filter own).map Segment.key := by
    intro key hkey
    obtain ⟨⟨seg, hseg, rfl⟩, hhead⟩ := (hmem key).mp hkey
    exact List.mem_map_of_mem (List.mem_filter.mpr ⟨hseg, by simpa using hown seg hseg hhead⟩)
  have hlength := (List.subperm_of_subset (hsorted.imp ne_of_lt) hsub).length_le
  rw [List.length_map] at hlength
  have hall : keys.rtake limit.toNat = keys := by
    rw [List.rtake, show keys.length - limit.toNat = 0 by omega, List.drop_zero]
  rw [hlisted, hall]
  exact ⟨List.pairwise_reverse.mpr hsorted, fun key ↦ by rw [List.mem_reverse, hmem]⟩

end Listing

section Dates

theorem date_ne_nil (seg : Segment) : seg.date ≠ [] := by simp [Segment.date, strftimeDate, lit]

theorem date_length {seg : Segment} (hyear : (gmtime seg.startedAt).date.year ≤ 9999) :
    seg.date.length = 10 := by
  have hlow := year_ge seg.startedAt
  rw [Segment.date, strftimeDate, decimal_year (by omega) hyear]
  rfl

theorem dates_sorted (store : SegmentStore) (segs : List Segment) (imei : Str) :
    (listDates store (stored segs) imei).Pairwise (· < ·) := by
  rw [listDates]
  have hperm :=
    List.perm_insertionSort (· ≤ ·)
      (((store.client.listObjects (stored segs) (imei ++ lit "/") false).map
        fun obj ↦ datePart imei obj.objectName).filter (· ≠ [])).dedup
  have hnodup := hperm.nodup_iff.mpr (List.nodup_dedup _)
  exact ((List.pairwise_insertionSort _ _).and hnodup).imp fun h ↦ lt_of_le_of_ne h.1 h.2

variable (hplants : ∀ seg ∈ segs, ¬Plants imei seg)
include hplants

theorem below_device {seg : Segment} (hseg : seg ∈ segs) :
    listed imei none <+: seg.key ↔ seg.imei = imei := by
  refine ⟨eq_of_not_plants (hplants seg hseg), fun himei ↦ ?_⟩
  exact (head_prefix_key imei seg).mpr (.inl himei.symm)

theorem below_date {seg : Segment} (hseg : seg ∈ segs) {date : Str} (hne : date ≠ [])
    (hlength : date.length = seg.date.length) :
    listed imei (some date) <+: seg.key ↔ seg.imei = imei ∧ seg.date = date := by
  constructor
  · intro hhead
    have himei := eq_of_not_plants (hplants seg hseg) ((head_prefix_listed imei _).trans hhead)
    refine ⟨himei, ?_⟩
    rw [listed_some imei hne, seg.key_eq, ← himei, List.append_assoc,
      List.prefix_append_right_inj] at hhead
    obtain ⟨rest, hrest⟩ := (List.cons_prefix_cons.mp hhead).2
    have hrest : date ++ 47 :: rest = seg.date ++ 47 :: seg.name := by simpa [lit] using hrest
    exact (List.append_inj_left hrest hlength).symm
  · rintro ⟨rfl, rfl⟩
    rw [listed_some _ hne, seg.key_eq]
    exact ⟨seg.name, by simp [lit]⟩

theorem mem_dates (store : SegmentStore) {date : Str} :
    date ∈ listDates store (stored segs) imei ↔ ∃ seg ∈ segs, seg.imei = imei ∧
    seg.date = date := by
  refine ⟨(unmixed_of_clear hplants : Unmixed store segs imei).dates date, ?_⟩
  rintro ⟨seg, hseg, rfl, rfl⟩
  have hkey : seg.key = seg.imei ++ lit "/" ++ (seg.date ++ 47 :: seg.name) := by
    simp [seg.key_eq, lit]
  refine (mem_listDates store _).mpr ⟨date_ne_nil seg, seg.key,
    (mem_keys_stored segs _).mpr ⟨seg, hseg, rfl⟩, ?_, ?_⟩
  · exact (head_prefix_key _ seg).mpr (.inl rfl)
  · rw [hkey]
    exact datePart_grouped seg.slash_notMem_date _ (.inr ⟨_, rfl⟩)

variable (hyears : ∀ seg ∈ segs, (gmtime seg.startedAt).date.year ≤ 9999)
include hyears

/-- The dates of a device are those on which it has a recording. Through them, the last one first,
and through the recordings of each date one comes upon the keys of the device's recordings, each of
them once, in the order in which they are listed all together. -/
theorem listDates_exact (store : SegmentStore) (honce : store.client.Once) {limit limit' : ℤ}
    (hlimit : 1 ≤ limit) (hlimit' : 1 ≤ limit')
    (hday : ∀ date, ((segs.filter fun seg ↦ seg.imei = imei ∧ seg.date = date).length : ℤ) ≤ limit)
    (hall : ((segs.filter fun seg ↦ seg.imei = imei).length : ℤ) ≤ limit') :
    (listDates store (stored segs) imei).Pairwise (· < ·) ∧
      (∀ date, date ∈ listDates store (stored segs) imei ↔
        ∃ seg ∈ segs, seg.imei = imei ∧ seg.date = date) ∧
      (∀ date ∈ listDates store (stored segs) imei,
        listSegments store (stored segs) imei (some date) limit ≠ []) ∧
      (listDates store (stored segs) imei).reverse.flatMap (fun date ↦
          (listSegments store (stored segs) imei (some date) limit).map Item.key) =
        (listSegments store (stored segs) imei none limit').map Item.key ∧
      ((listSegments store (stored segs) imei none limit').map Item.key).Nodup ∧
      ∀ key, key ∈ (listSegments store (stored segs) imei none limit').map Item.key ↔
        ∃ seg ∈ segs, seg.imei = imei ∧ seg.key = key := by
  obtain ⟨dates, hdates⟩ : ∃ dates, dates = listDates store (stored segs) imei := ⟨_, rfl⟩
  have hmem (date : Str) : date ∈ dates ↔ ∃ seg ∈ segs, seg.imei = imei ∧ seg.date = date :=
    hdates ▸ mem_dates hplants store
  have hlength : ∀ date ∈ dates, date.length = 10 := by
    intro date hdate
    obtain ⟨seg, hseg, -, rfl⟩ := (hmem date).mp hdate
    exact date_length (hyears seg hseg)
  have hsorted : dates.Pairwise (· < ·) := hdates ▸ dates_sorted store segs imei
  have hbelow (date : Str) (hdate : date ∈ dates) (seg : Segment) (hseg : seg ∈ segs) :
      listed imei (some date) <+: seg.key ↔ seg.imei = imei ∧ seg.date = date := by
    obtain ⟨seg', hseg', -, rfl⟩ := (hmem date).mp hdate
    exact below_date hplants hseg (date_ne_nil seg')
      ((date_length (hyears seg' hseg')).trans (date_length (hyears seg hseg)).symm)
  have hlisting (date : Str) (hdate : date ∈ dates) := listing_whole store honce (some date)
    (fun seg ↦ seg.imei = imei ∧ seg.date = date)
      (fun seg hseg ↦ (hbelow date hdate seg hseg).mp) hlimit
    (hday date)
  obtain ⟨hwhole, hkeys⟩ := listing_whole store honce none (fun seg ↦ seg.imei = imei)
    (fun seg hseg ↦ (below_device hplants hseg).mp) hlimit' hall
  rw [← hdates]
  refine ⟨hsorted, hmem, fun date hdate hnil ↦ ?_, ?_, hwhole.imp ne_of_gt, fun key ↦ ?_⟩
  · obtain ⟨seg, hseg, hown⟩ := (hmem date).mp hdate
    have hlisted := ((hlisting date hdate).2 seg.key).mpr ⟨⟨seg, hseg, rfl⟩,
      (hbelow date hdate seg hseg).mpr hown⟩
    rw [hnil] at hlisted
    cases hlisted
  · refine List.Pairwise.eq_of_mem_iff
      (r := (· > ·)) (List.pairwise_flatMap.mpr ⟨fun date hdate ↦ ?_, ?_⟩) hwhole
      fun key ↦ ?_
    · exact (hlisting date (List.mem_reverse.mp hdate)).1
    · refine List.pairwise_reverse.mpr (hsorted.imp_of_mem
        fun {date date'} hdate hdate' hlt x hx y hy ↦ ?_)
      obtain ⟨⟨seg, hseg, rfl⟩, hhead⟩ := ((hlisting date' hdate').2 x).mp hx
      obtain ⟨⟨seg', hseg', rfl⟩, hhead'⟩ := ((hlisting date hdate).2 y).mp hy
      obtain ⟨rfl, rfl⟩ := (hbelow date' hdate' seg hseg).mp hhead
      obtain ⟨himei, rfl⟩ := (hbelow date hdate seg' hseg').mp hhead'
      rw [gt_iff_lt, seg.key_eq, seg'.key_eq, himei]
      refine List.append_left_lt (List.cons_lt_cons_iff.mpr
        (.inr ⟨rfl, Words.block_lt ?_ (.inl hlt)⟩))
      rw [hlength _ hdate, hlength _ hdate']
    · rw [hkeys, List.mem_flatMap]
      constructor
      · rintro ⟨date, hdate, hkey⟩
        obtain ⟨hstored, hhead⟩ := ((hlisting date (List.mem_reverse.mp hdate)).2 key).mp hkey
        exact ⟨hstored, (head_prefix_listed imei _).trans hhead⟩
      · rintro ⟨⟨seg, hseg, rfl⟩, hhead⟩
        have himei := (below_device hplants hseg).mp hhead
        have hdate := (hmem seg.date).mpr ⟨seg, hseg, himei, rfl⟩
        refine ⟨seg.date, List.mem_reverse.mpr hdate,
          ((hlisting seg.date hdate).2 seg.key).mpr ⟨⟨seg, hseg, rfl⟩, ?_⟩⟩
        exact (hbelow seg.date hdate seg hseg).mpr ⟨himei, rfl⟩
  · rw [hkeys]
    constructor
    · rintro ⟨⟨seg, hseg, rfl⟩, hhead⟩
      exact ⟨seg, hseg, (below_device hplants hseg).mp hhead, rfl⟩
    · rintro ⟨seg, hseg, himei, rfl⟩
      exact ⟨⟨seg, hseg, rfl⟩, (below_device hplants hseg).mpr himei⟩

end Dates

def newYear : List Segment :=
  [⟨lit "A", [1], 1704067199.5, 59.98, .opus⟩, ⟨lit "A", [2], 1704067200, 7, .wav⟩]

theorem listDates_exact_newYear :
    (listDates ⟨.plain, 3600⟩ (stored newYear) (lit "A")).reverse.flatMap (fun date ↦
        (listSegments ⟨.plain, 3600⟩ (stored newYear) (lit "A")
          (some date) defaultLimit).map Item.key) =
      (listSegments ⟨.plain, 3600⟩ (stored newYear) (lit "A") none defaultLimit).map Item.key := by
  have hplants : ∀ seg ∈ newYear, ¬Plants (lit "A") seg := by
    intro seg hseg hplants
    rw [newYear, List.mem_pair] at hseg
    rcases hseg with rfl | rfl
    · simp [Plants, lit] at hplants
    · simp [Plants, lit] at hplants
  refine (listDates_exact hplants (by decide +kernel) ⟨.plain,
    3600⟩ plain_once (by decide) (by decide) (fun date ↦ ?_)
    (by decide)).2.2.2.1
  have hfew := List.length_filter_le (fun seg : Segment ↦ seg.imei = lit "A" ∧
    seg.date = date) newYear
  have htwo : newYear.length = 2 := rfl
  rw [defaultLimit]
  omega

end OpusFleet.Server.Storage
