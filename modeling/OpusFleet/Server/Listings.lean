import Mathlib.Data.List.Sort
import OpusFleet.Library.Dict
import OpusFleet.Server.Protocol
import OpusFleet.Server.Storage

namespace OpusFleet.Server.Storage

open Python Library

section Store

inductive Ext
  | opus
  | wav
  deriving DecidableEq

def Ext.text : Ext → Str
  | opus => lit "opus"
  | wav => lit "wav"

structure Segment where
  imei : Str
  data : Bytes
  startedAt : ℚ≥0
  durationS : ℚ
  ext : Ext

def Segment.key (seg : Segment) : Str :=
  keyFor seg.imei seg.startedAt seg.durationS seg.ext.text

abbrev Bucket := Dict Str Bytes

def putSegment (bucket : Bucket) (seg : Segment) : Bucket := bucket.set seg.key seg.data

/-- The bucket after these segments were put into it. -/
def stored (segs : List Segment) : Bucket := segs.foldl putSegment Dict.empty

theorem mem_keys_stored (segs : List Segment) (key : Str) :
    key ∈ (stored segs).keys ↔ ∃ seg ∈ segs, seg.key = key := by
  induction segs using List.reverseRecOn with
  | nil => simp [stored, Dict.empty, Dict.keys]
  | append_singleton segs seg ih =>
    have hput : stored (segs ++ [seg]) = putSegment (stored segs) seg := by simp [stored]
    have hkeys : key ∈ (stored (segs ++ [seg])).keys ↔ key = seg.key ∨
        key ∈ (stored segs).keys := by
      rw [hput, putSegment, Dict.mem_keys, Dict.mem_keys, Dict.get_set]
      by_cases h : key = seg.key <;> simp [h]
    rw [hkeys, ih]
    simp only [List.mem_append, List.mem_singleton, or_and_right, exists_or, exists_eq_left]
    rw [or_comm, eq_comm]

end Store

section Client

/-- An object of a listing, or a group of them, which has no size. -/
structure Object where
  objectName : Str
  size : Option ℕ

/-- How a listing that does not descend shows a key: up to the next
'/', if one follows the prefix. -/
def grouped (head key : Str) : Str :=
  let rest := key.drop head.length
  if 47 ∈ rest then head ++ rest.takeWhile (· != 47) ++ lit "/" else key

/-- The store's client, as far as the listings rely on it: it lists
exactly the keys with a prefix. -/
structure Client where
  listObjects : Bucket → Str → Bool → List Object
  presignedGetObject : Str → ℕ → Str
  recursive : ∀ bucket head name, name ∈ (listObjects bucket head true).map Object.objectName ↔
    name ∈ bucket.keys ∧ head <+: name
  flat : ∀ bucket head name, name ∈ (listObjects bucket head false).map Object.objectName ↔
    ∃ key ∈ bucket.keys, head <+: key ∧ grouped head key = name

def Client.plain : Client where
  listObjects bucket head descend :=
    let found := bucket.entries.filter fun e ↦ head.isPrefixOf e.1
    if descend then found.map fun e ↦ ⟨e.1, some e.2.length⟩
    else (found.map fun e ↦ grouped head e.1).dedup.map fun name ↦ ⟨name, none⟩
  presignedGetObject key _ := key
  recursive bucket head name := by
    simp only [if_true, List.map_map, Dict.keys, List.mem_map, List.mem_filter,
      List.isPrefixOf_iff_prefix]
    constructor
    · intro h
      obtain ⟨e, ⟨he, hhead⟩, rfl⟩ := h
      exact ⟨⟨e, he, rfl⟩, hhead⟩
    · intro h
      obtain ⟨⟨e, he, rfl⟩, hhead⟩ := h
      exact ⟨e, ⟨he, hhead⟩, rfl⟩
  flat bucket head name := by
    simp only [Bool.false_eq_true, if_false, Dict.keys, List.mem_map, List.mem_dedup,
      List.mem_filter, List.isPrefixOf_iff_prefix]
    constructor
    · intro h
      obtain ⟨-, ⟨-, ⟨e, ⟨he, hhead⟩, rfl⟩, rfl⟩, rfl⟩ := h
      exact ⟨e.1, ⟨e, he, rfl⟩, hhead, rfl⟩
    · intro h
      obtain ⟨-, ⟨e, he, rfl⟩, hhead, rfl⟩ := h
      exact ⟨_, ⟨_, ⟨e, ⟨he, hhead⟩, rfl⟩, rfl⟩, rfl⟩

end Client

section Listing

structure SegmentStore where
  client : Client
  presignExpiry : ℕ

variable (store : SegmentStore) (bucket : Bucket)

def sliceFrom {α : Type*} (i : ℤ) (xs : List α) : List α :=
  if i < 0 then xs.drop (xs.length - i.natAbs) else xs.drop i.natAbs

def afterLast (sep : ℕ) (s : Str) : Str := s.rtakeWhile (· != sep)

def beforeLast (sep : ℕ) (s : Str) : Str :=
  if sep ∈ s then (s.rdropWhile (· != sep)).dropLast else s

def presign (key : Str) (expiry : Option ℕ) : Str :=
  store.client.presignedGetObject key
    (match expiry with
      | none | some 0 => store.presignExpiry
      | some seconds => seconds)

/-- An entry of the answer to /api/recordings. -/
structure Item where
  key : Str
  size : Option ℕ
  duration : Str
  url : Str

def item (o : Object) : Item :=
  let name := afterLast 47 o.objectName
  { key := o.objectName
    size := o.size
    duration := if 95 ∈ name then beforeLast 46 (afterLast 95 name) else []
    url := presign store o.objectName none }

/-- The prefix under which the recordings of a device are, all of them or those of a date. -/
def listed (imei : Str) : Option Str → Str
  | none | some [] => imei ++ lit "/"
  | some date => imei ++ lit "/" ++ (date ++ lit "/")

def listSegments (imei : Str) (date : Option Str) (limit : ℤ) : List Item :=
  let objs := store.client.listObjects bucket (listed imei date) true
  let objs := objs.insertionSort fun o o' ↦ o.objectName ≤ o'.objectName
  let objs := sliceFrom (-limit) objs
  objs.reverse.map (item store)

def datePart (imei objectName : Str) : Str :=
  ((objectName.drop (imei ++ lit "/").length).dropWhile (· == 47)).rdropWhile (· == 47)

def listDates (imei : Str) : List Str :=
  let objs := store.client.listObjects bucket (imei ++ lit "/") false
  let parts := objs.map fun obj ↦ datePart imei obj.objectName
  (parts.filter (· ≠ [])).dedup.insertionSort (· ≤ ·)

theorem mem_sliceFrom {α : Type*} {i : ℤ} {xs : List α} {x : α} (h : x ∈ sliceFrom i xs) :
    x ∈ xs := by
  rw [sliceFrom] at h
  split at h
  · exact List.mem_of_mem_drop h
  · exact List.mem_of_mem_drop h

theorem sliceFrom_ne_nil {α : Type*} {i : ℤ} {xs : List α} (hi : i < 0) (h : xs ≠ []) :
    sliceFrom i xs ≠ [] := by
  have hpos := List.length_pos_iff.mpr h
  rw [sliceFrom, if_pos hi, ne_eq, List.drop_eq_nil_iff]
  omega

theorem mem_listSegments {imei : Str} {date : Option Str} {limit : ℤ} {it : Item}
    (h : it ∈ listSegments store bucket imei date limit) :
    it.key ∈ bucket.keys ∧ listed imei date <+: it.key := by
  obtain ⟨obj, hobj, rfl⟩ := List.mem_map.mp h
  have hobj := (List.mem_insertionSort _).mp (mem_sliceFrom (List.mem_reverse.mp hobj))
  exact (store.client.recursive _ _ _).mp (List.mem_map.mpr ⟨obj, hobj, rfl⟩)

theorem listSegments_ne_nil {imei key : Str} {date : Option Str} {limit : ℤ} (hlimit : 0 < limit)
    (hkey : key ∈ bucket.keys) (hhead : listed imei date <+: key) :
    listSegments store bucket imei date limit ≠ [] := by
  obtain ⟨obj, hobj, -⟩ := List.mem_map.mp ((store.client.recursive bucket _ key).mpr ⟨hkey, hhead⟩)
  have hsorted := List.ne_nil_of_mem
    ((List.mem_insertionSort fun o o' : Object ↦ o.objectName ≤ o'.objectName).mpr hobj)
  have hslice := sliceFrom_ne_nil (neg_neg_of_pos hlimit) hsorted
  simpa [listSegments] using hslice

theorem mem_listDates {imei part : Str} : part ∈ listDates store bucket imei ↔ part ≠ [] ∧
    ∃ key ∈ bucket.keys, imei ++ lit "/" <+: key ∧
      datePart imei (grouped (imei ++ lit "/") key) = part := by
  have hflat := store.client.flat bucket (imei ++ lit "/")
  simp only [List.mem_map] at hflat
  simp only [listDates, List.mem_insertionSort, List.mem_dedup, List.mem_filter, List.mem_map,
    decide_eq_true_eq]
  rw [and_comm]
  apply and_congr_right
  intro _
  constructor
  · intro h
    obtain ⟨obj, hobj, rfl⟩ := h
    obtain ⟨key, hkey, hhead, hname⟩ := (hflat obj.objectName).mp ⟨obj, hobj, rfl⟩
    exact ⟨key, hkey, hhead, hname ▸ rfl⟩
  · intro h
    obtain ⟨key, hkey, hhead, rfl⟩ := h
    obtain ⟨obj, hobj, hname⟩ := (hflat _).mpr ⟨key, hkey, hhead, rfl⟩
    exact ⟨obj, hobj, hname ▸ rfl⟩

end Listing

section Layout

namespace Segment

variable (seg : Segment)

def date : Str := strftimeDate (gmtime seg.startedAt)

def name : Str :=
  strftimeTime (gmtime seg.startedAt) ++ lit "_" ++ decimalInt (truncate seg.durationS) ++
    lit "s." ++ seg.ext.text

theorem key_eq : seg.key = seg.imei ++ 47 :: (seg.date ++ 47 :: seg.name) := by
  simp only [key, keyFor, date, name, List.append_assoc]
  rfl

theorem mem_date {c : ℕ} (h : c ∈ seg.date) : c = 45 ∨ 48 ≤ c ∧ c < 58 := by
  obtain ⟨hmonth, hday, -⟩ := gmtime_lt seg.startedAt
  simp only [date, strftimeDate, List.mem_append] at h
  rcases h with (((h | h) | h) | h) | h
  · have hdigit := mem_decimal h
    omega
  · exact .inl (List.mem_singleton.mp h)
  · exact .inr (mem_twoDigits hmonth h)
  · exact .inl (List.mem_singleton.mp h)
  · exact .inr (mem_twoDigits hday h)

theorem slash_notMem_date : 47 ∉ seg.date := by
  intro h
  have hdate := seg.mem_date h
  omega

theorem slash_notMem_name : 47 ∉ seg.name := by
  obtain ⟨-, -, hhour, hminute, hsecond⟩ := gmtime_lt seg.startedAt
  have hext : 47 ∉ seg.ext.text := by cases seg.ext <;> decide
  intro h
  simp only [name, strftimeTime, List.mem_append, or_assoc] at h
  rcases h with h | h | h | h | h | h | h
  · exact absurd (mem_twoDigits hhour h) (by decide)
  · exact absurd (mem_twoDigits hminute h) (by decide)
  · exact absurd (mem_twoDigits hsecond h) (by decide)
  · exact absurd h (by decide)
  · exact slash_notMem_decimalInt _ h
  · exact absurd h (by decide)
  · exact hext h

theorem underscore_mem_name : 95 ∈ seg.name := by simp [name, lit]

theorem name_ne_nil : seg.name ≠ [] := List.ne_nil_of_mem seg.underscore_mem_name

theorem name_ne_date (seg' : Segment) : seg.name ≠ seg'.date := by
  intro h
  have hdate := seg'.mem_date (h ▸ seg.underscore_mem_name)
  omega

end Segment

theorem head_prefix_key (imei : Str) (seg : Segment) : imei ++ lit "/" <+: seg.key ↔
    imei = seg.imei ∨ imei = seg.imei ++ 47 :: seg.date ∨ ∃ x, seg.imei = imei ++ 47 :: x := by
  rw [seg.key_eq]
  exact Words.dir_prefix seg.slash_notMem_date seg.slash_notMem_name

end Layout

section Isolation

def defaultLimit : ℤ := 300

/-- The listings of a device tell of its own recordings only. -/
structure Unmixed (store : SegmentStore) (segs : List Segment) (imei : Str) : Prop where
  segments : ∀ date, ∀ it ∈ listSegments store (stored segs) imei date defaultLimit,
    (∃ seg ∈ segs, seg.key = it.key) ∧ ∀ seg ∈ segs, seg.key = it.key → seg.imei = imei
  dates : ∀ date ∈ listDates store (stored segs) imei, ∃ seg ∈ segs, seg.imei = imei ∧
    seg.date = date

/-- The recording shows up in the listings of `imei` though it is of another device: its device's
name goes on after a '/', or `imei` is the directory of its date. -/
def Plants (imei : Str) (seg : Segment) : Prop :=
  (∃ x, seg.imei = imei ++ 47 :: x) ∨ imei = seg.imei ++ 47 :: seg.date

variable {store : SegmentStore} {segs : List Segment} {imei : Str}

theorem strip_slash {u : Str} (hu : 47 ∉ u) (rest : Str) (hrest : ∀ c ∈ rest, c = 47) :
    ((u ++ rest).dropWhile (· == 47)).rdropWhile (· == 47) = u := by
  have hend : rest.reverse.dropWhile (· == 47) = [] :=
    List.dropWhile_eq_nil_iff.mpr fun c hc ↦ by simp [hrest c (List.mem_reverse.mp hc)]
  have hself : u.rdropWhile (· == 47) = u := by
    rw [List.rdropWhile_eq_self_iff]
    intro hl
    simpa using fun heq : u.getLast hl = 47 ↦ hu (heq ▸ List.getLast_mem hl)
  rw [List.rdropWhile] at hself
  cases u with
  | nil => simpa using fun c hc ↦ hrest c ((List.dropWhile_suffix _).subset hc)
  | cons c cs =>
    have hc : c ≠ 47 := fun heq ↦ hu (heq ▸ List.mem_cons_self)
    rw [List.cons_append, List.dropWhile_cons_of_neg (by simpa using hc), ← List.cons_append,
      List.rdropWhile, List.reverse_append, List.dropWhile_append, hend]
    exact hself

/-- What `list_dates` makes of a key: its first part below the device's directory. -/
theorem datePart_grouped {u : Str} (hu : 47 ∉ u) (rest : Str)
    (hrest : rest = [] ∨ ∃ v, rest = 47 :: v) :
    datePart imei (grouped (imei ++ lit "/") (imei ++ lit "/" ++ (u ++ rest))) = u := by
  have htake : ∀ c ∈ u, (c != 47) = true := fun c hc ↦ by
    simpa using fun heq : c = 47 ↦ hu (heq ▸ hc)
  rcases hrest with rfl | ⟨v, rfl⟩
  · rw [List.append_nil, grouped, datePart, List.drop_left, if_neg hu, List.drop_left]
    simpa using strip_slash hu [] (by simp)
  · rw [grouped, datePart, List.drop_left, if_pos (by simp), List.append_assoc, List.drop_left,
      List.takeWhile_append_of_pos htake]
    simpa using strip_slash hu (lit "/") (by simp [lit])

theorem eq_of_not_plants {seg : Segment} (hseg : ¬ Plants imei seg)
    (hhead : imei ++ lit "/" <+: seg.key) : seg.imei = imei := by
  rcases (head_prefix_key imei seg).mp hhead with h | h | h
  · exact h.symm
  · exact absurd (.inr h) hseg
  · exact absurd (.inl h) hseg

theorem listed_some (imei : Str) {date : Str} (hdate : date ≠ []) :
    listed imei (some date) = imei ++ lit "/" ++ (date ++ lit "/") := by
  cases date with
  | nil => exact absurd rfl hdate
  | cons c cs => rfl

theorem head_prefix_listed (imei : Str) (date : Option Str) :
    imei ++ lit "/" <+: listed imei date := by
  rcases date with _ | _ | ⟨c, cs⟩
  · exact List.prefix_refl _
  · exact List.prefix_refl _
  · exact List.prefix_append _ _

theorem not_listed_below {x date : Str} {seg : Segment} :
    ¬ seg.imei ++ lit "/" ++ (x ++ lit "/" ++ date ++ lit "/") <+: seg.key := by
  intro h
  rw [seg.key_eq, List.append_assoc, List.prefix_append_right_inj] at h
  have hcount := h.sublist.count_le 47
  have hdate := List.count_eq_zero.mpr seg.slash_notMem_date
  have hname := List.count_eq_zero.mpr seg.slash_notMem_name
  simp [lit, hdate, hname] at hcount
  omega

theorem Unmixed.not_below (h : Unmixed store segs imei) {seg : Segment}
    (hseg : seg ∈ segs) (x : Str) :
    seg.imei ≠ imei ++ 47 :: x := by
  intro himei
  have hkey := (mem_keys_stored segs seg.key).mpr ⟨seg, hseg, rfl⟩
  have hhead : listed imei (some (x ++ lit "/" ++ seg.date)) <+: seg.key := by
    rw [listed_some imei (by simp [lit]), seg.key_eq, himei]
    exact ⟨seg.name, by simp [lit]⟩
  obtain ⟨it, hit⟩ := List.exists_mem_of_ne_nil _
    (listSegments_ne_nil store _ (show 0 < defaultLimit by decide) hkey hhead)
  obtain ⟨⟨own, hown, hownKey⟩, honly⟩ := h.segments _ it hit
  have hlisted := (mem_listSegments store _ hit).2
  rw [listed_some imei (by simp [lit]), ← hownKey, ← honly own hown hownKey] at hlisted
  exact not_listed_below hlisted

theorem Unmixed.not_directory (h : Unmixed store segs imei) {seg : Segment} (hseg : seg ∈ segs) :
    imei ≠ seg.imei ++ 47 :: seg.date := by
  intro himei
  have hkey := (mem_keys_stored segs seg.key).mpr ⟨seg, hseg, rfl⟩
  have hbelow : seg.key = imei ++ lit "/" ++ (seg.name ++ []) := by simp [seg.key_eq, himei, lit]
  have hdate : seg.name ∈ listDates store (stored segs) imei := by
    refine (mem_listDates store _).mpr ⟨seg.name_ne_nil, seg.key, hkey, ?_, ?_⟩
    · exact (head_prefix_key imei seg).mpr (.inr (.inl himei))
    · rw [hbelow]
      exact datePart_grouped seg.slash_notMem_name [] (.inl rfl)
  obtain ⟨own, -, -, hownDate⟩ := h.dates _ hdate
  exact seg.name_ne_date own hownDate.symm

theorem unmixed_of_clear (h : ∀ seg ∈ segs, ¬ Plants imei seg) : Unmixed store segs imei := by
  constructor
  · intro date it hit
    obtain ⟨hkey, hlisted⟩ := mem_listSegments store _ hit
    refine ⟨(mem_keys_stored segs it.key).mp hkey, fun seg hseg hsegKey ↦ ?_⟩
    apply eq_of_not_plants (h seg hseg)
    exact hsegKey ▸ (head_prefix_listed imei date).trans hlisted
  · intro date hdate
    obtain ⟨-, key, hkey, hhead, rfl⟩ := (mem_listDates store _).mp hdate
    obtain ⟨seg, hseg, rfl⟩ := (mem_keys_stored segs key).mp hkey
    obtain rfl := eq_of_not_plants (h seg hseg) hhead
    have hbelow : seg.key = seg.imei ++ lit "/" ++ (seg.date ++ 47 :: seg.name) := by
      simp [seg.key_eq, lit]
    refine ⟨seg, hseg, rfl, ?_⟩
    rw [hbelow]
    exact (datePart_grouped seg.slash_notMem_date _ (.inr ⟨_, rfl⟩)).symm

/-- The listings of a device are its own exactly when no stored
recording is planted in its directory. -/
theorem unmixed_iff (store : SegmentStore) (segs : List Segment) (imei : Str) :
    Unmixed store segs imei ↔ ∀ seg ∈ segs, ¬ Plants imei seg := by
  constructor
  · intro h seg hseg hplants
    rcases hplants with ⟨x, hx⟩ | hdir
    · exact h.not_below hseg x hx
    · exact h.not_directory hseg hdir
  · exact unmixed_of_clear

theorem unmixed_iff_other :
    Unmixed ⟨.plain, 3600⟩
      [⟨lit "A", [1], 1700000000, 60, .opus⟩, ⟨lit "B", [2], 1700000000, 60, .opus⟩] (lit "A") := by
  refine (unmixed_iff _ _ _).mpr fun seg hseg ↦ ?_
  rw [List.mem_pair] at hseg
  rcases hseg with rfl | rfl
  · intro hplants
    simp [Plants, lit] at hplants
  · intro hplants
    simp [Plants, lit] at hplants

/-- A device that calls itself "A/1" puts its recording among those of "A". -/
theorem listing_mixes :
    Protocol.classify 1000 (ascii "HELLO:A") = .ok (.hello (lit "A")) ∧
      Protocol.classify 1000 (ascii "HELLO:A/1") = .ok (.hello (lit "A/1")) ∧
      ¬ Unmixed ⟨.plain, 3600⟩
        [⟨lit "A", [1], 1700000000, 60, .opus⟩, ⟨lit "A/1", [2], 1700000000, 60, .opus⟩]
          (lit "A") := by
  refine ⟨rfl, rfl, fun h ↦ ?_⟩
  have hkey : (lit "A/1/2023-11-14/221320_60s.opus") ∈ (listSegments ⟨.plain, 3600⟩ (stored
      [⟨lit "A", [1], 1700000000, 60, .opus⟩, ⟨lit "A/1", [2], 1700000000, 60, .opus⟩])
      (lit "A") none defaultLimit).map Item.key := by decide +kernel
  obtain ⟨it, hit, hitKey⟩ := List.mem_map.mp hkey
  have himei := (h.segments none it hit).2 ⟨lit "A/1", [2], 1700000000, 60, .opus⟩
    (List.mem_pair.mpr (.inr rfl)) (hitKey ▸ by decide +kernel)
  exact absurd himei (by decide)

end Isolation

end OpusFleet.Server.Storage
