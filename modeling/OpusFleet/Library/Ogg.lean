import Mathlib.Algebra.BigOperators.Group.List.Basic
import OpusFleet.Library.Octets

namespace OpusFleet.Library.Ogg

open Octets

abbrev Bytes := List UInt8

section Lacing

/-- The lacing values of a packet: 255s, then the first value below 255. -/
def lacing (n : ℕ) : List ℕ := if n < 255 then [n] else 255 :: lacing (n - 255)

/-- The packets that the lacing values of a page cut its payload into, after the part `part` of
a packet begun before; the second component is the packet left unfinished. -/
def joinLacing : Bytes → List ℕ → Bytes → List Bytes × Bytes
  | part, [], _ => ([], part)
  | part, s :: segments, payload =>
    if s < 255 then
      let (packets, rest) := joinLacing [] segments (payload.drop s)
      ((part ++ payload.take s) :: packets, rest)
    else joinLacing (part ++ payload.take s) segments (payload.drop s)

theorem lacing_sum (n : ℕ) : (lacing n).sum = n := by
  induction n using Nat.strong_induction_on with
  | _ n ih =>
    rw [lacing]
    split
    · simp
    · rw [List.sum_cons, ih (n - 255) (by omega)]
      omega

theorem lacing_le (n : ℕ) : ∀ s ∈ lacing n, s ≤ 255 := by
  induction n using Nat.strong_induction_on with
  | _ n ih =>
    rw [lacing]
    split
    · intro s hs
      rw [List.mem_singleton.mp hs]
      omega
    · intro s hs
      rcases List.mem_cons.mp hs with rfl | hs
      · exact Nat.le_refl _
      · exact ih (n - 255) (by omega) s hs

theorem joinLacing_lacing (part packet : Bytes) (segments : List ℕ) (payload : Bytes) :
    joinLacing part (lacing packet.length ++ segments) (packet ++ payload) =
      ((part ++ packet) :: (joinLacing [] segments payload).1,
        (joinLacing [] segments payload).2) := by
  induction hn : packet.length using Nat.strong_induction_on generalizing part packet with
  | _ n ih =>
    rw [lacing]
    split
    · next h =>
      subst hn
      simp only [List.cons_append, List.nil_append, joinLacing, if_pos h, List.take_left,
        List.drop_left]
    · next h =>
      have hcut : packet = packet.take 255 ++ packet.drop 255 := (List.take_append_drop _ _).symm
      have hlen : (packet.take 255).length = 255 := by rw [List.length_take]; omega
      rw [List.cons_append, joinLacing, if_neg (by omega)]
      conv_lhs => rw [hcut, List.append_assoc, List.take_left' hlen, List.drop_left' hlen]
      rw [ih (n - 255) (by omega) (part ++ packet.take 255) (packet.drop 255)
        (by rw [List.length_drop]; omega), List.append_assoc, ← hcut]

theorem joinLacing_packets (packets : List Bytes) :
    joinLacing [] (packets.flatMap fun p ↦ lacing p.length) packets.flatten = (packets, []) := by
  induction packets with
  | nil => rfl
  | cons p packets ih =>
    rw [List.flatMap_cons, List.flatten_cons, joinLacing_lacing, ih, List.nil_append]

end Lacing

section Pages

structure Page where
  flags : ℕ
  granule : ℕ
  serial : ℕ
  seqno : ℕ
  segments : List ℕ
  payload : Bytes

structure Page.Valid (p : Page) : Prop where
  flags : p.flags < 256
  granule : p.granule < 2 ^ 64
  serial : p.serial < 2 ^ 32
  seqno : p.seqno < 2 ^ 32
  count : p.segments.length < 256
  table : ∀ s ∈ p.segments, s < 256
  payload : p.payload.length = p.segments.sum

def capture : Bytes := [79, 103, 103, 83]

def Page.head (p : Page) : Bytes :=
  capture ++ ([0] ++ (packLE 1 p.flags ++ (packLE 8 p.granule ++ (packLE 4 p.serial ++
    packLE 4 p.seqno))))

def Page.tail (p : Page) : Bytes :=
  packLE 1 p.segments.length ++ (p.segments.map UInt8.ofNat ++ p.payload)

variable (crc : Bytes → ℕ)

/-- A page with the checksum taken while its own field is zero. -/
def Page.encode (p : Page) : Bytes :=
  p.head ++ (packLE 4 (crc (p.head ++ ([0, 0, 0, 0] ++ p.tail))) ++ p.tail)

@[simp] theorem Page.head_length (p : Page) : p.head.length = 22 := by simp [Page.head, capture]

theorem Page.encode_checksum {crc : Bytes → ℕ} (hcrc : ∀ bs, crc bs < 2 ^ 32) (p : Page) :
    unpackLE (((p.encode crc).drop 22).take 4) =
      crc ((p.encode crc).take 22 ++ ([0, 0, 0, 0] ++ (p.encode crc).drop 26)) := by
  have hhead := p.head_length
  have hcheck := packLE_length 4 (crc (p.head ++ ([0, 0, 0, 0] ++ p.tail)))
  have hdrop : (p.encode crc).drop 26 = p.tail := by
    rw [Page.encode, ← List.append_assoc,
      List.drop_left' (by rw [List.length_append, hhead, hcheck])]
  rw [hdrop, Page.encode, List.drop_left' hhead, List.take_left' hhead, List.take_left' hcheck]
  exact unpackLE_packLE 4 _ (hcrc _)

def cut (k : ℕ) (bs : Bytes) : Option (Bytes × Bytes) :=
  if k ≤ bs.length then some (bs.take k, bs.drop k) else none

theorem cut_append {k : ℕ} (a b : Bytes) (h : a.length = k) : cut k (a ++ b) = some (a, b) := by
  rw [cut, if_pos (by rw [List.length_append]; omega), List.take_left' h, List.drop_left' h]

theorem cut_bind {α : Type} {k : ℕ} (a b : Bytes) (h : a.length = k)
    (f : Bytes × Bytes → Option α) :
    cut k (a ++ b) >>= f = f (a, b) := by
  rw [cut_append a b h]
  rfl

def readPage (bs : Bytes) : Option (Page × Bytes) := do
  let (magic, bs) ← cut 4 bs
  let (version, bs) ← cut 1 bs
  let (flags, bs) ← cut 1 bs
  let (granule, bs) ← cut 8 bs
  let (serial, bs) ← cut 4 bs
  let (seqno, bs) ← cut 4 bs
  let (check, bs) ← cut 4 bs
  let (count, bs) ← cut 1 bs
  let (table, bs) ← cut (unpackLE count) bs
  let (payload, bs) ← cut (table.map UInt8.toNat).sum bs
  let p : Page := ⟨unpackLE flags, unpackLE granule, unpackLE serial, unpackLE seqno,
    table.map UInt8.toNat, payload⟩
  if magic = capture ∧ version = [0] ∧ unpackLE check =
    crc (p.head ++ ([0, 0, 0, 0] ++ p.tail)) then
    some (p, bs)
  else none

variable {crc} (hcrc : ∀ bs, crc bs < 2 ^ 32)

include hcrc in
theorem readPage_encode {p : Page} (h : p.Valid) (rest : Bytes) :
    readPage crc (p.encode crc ++ rest) = some (p, rest) := by
  have hflags := unpackLE_packLE 1 p.flags h.flags
  have hgranule := unpackLE_packLE 8 p.granule h.granule
  have hserial := unpackLE_packLE 4 p.serial h.serial
  have hseqno := unpackLE_packLE 4 p.seqno h.seqno
  have hcount := unpackLE_packLE 1 p.segments.length h.count
  have hcheck := unpackLE_packLE 4 _ (hcrc (p.head ++ ([0, 0, 0, 0] ++ p.tail)))
  have htable : (p.segments.map UInt8.ofNat).map UInt8.toNat = p.segments := by
    rw [List.map_map]
    refine (List.map_congr_left fun s hs ↦ ?_).trans (List.map_id _)
    rw [Function.comp_apply, UInt8.toNat_ofNat', Nat.mod_eq_of_lt (h.table s hs)]
    rfl
  obtain ⟨c, hc⟩ : ∃ c, c = crc (p.head ++ ([0, 0, 0, 0] ++ p.tail)) := ⟨_, rfl⟩
  rw [← hc] at hcheck
  have hbytes : p.encode crc ++ rest =
    capture ++ ([0] ++ (packLE 1 p.flags ++ (packLE 8 p.granule ++
      (packLE 4 p.serial ++ (packLE 4 p.seqno ++ (packLE 4 c ++ (packLE 1 p.segments.length ++
        (p.segments.map UInt8.ofNat ++ (p.payload ++ rest))))))))) := by
    rw [Page.encode, ← hc]
    simp only [Page.head, Page.tail, List.append_assoc]
  have hlen (k n : ℕ) : (packLE k n).length = k := packLE_length k n
  have hmagic : capture.length = 4 := rfl
  have hversion : ([0] : Bytes).length = 1 := rfl
  rw [hbytes, readPage]
  simp only [cut_bind capture _ hmagic, cut_bind [0] _ hversion, cut_bind _ _ (hlen 1 _),
    cut_bind _ _ (hlen 8 _), cut_bind _ _ (hlen 4 _), hcount,
    cut_bind _ _ (List.length_map _), htable,
    cut_bind _ _ h.payload, hflags, hgranule, hserial, hseqno]
  exact if_pos ⟨trivial, trivial, hcheck.trans hc⟩

/-- The pages of a stream that holds nothing else; `fuel` bounds their number. -/
def readPages (crc : Bytes → ℕ) : ℕ → Bytes → Option (List Page)
  | _, [] => some []
  | 0, _ :: _ => none
  | fuel + 1, b :: bs =>
    (readPage crc (b :: bs)).bind fun (p, rest) ↦ (readPages crc fuel rest).map (p :: ·)

/-- The packets of pages in order, and the packet that the last page leaves unfinished. -/
def joinPages : Bytes → List Page → List Bytes × Bytes
  | part, [] => ([], part)
  | part, p :: ps =>
    let (packets, part) := joinLacing part p.segments p.payload
    let (packets', part) := joinPages part ps
    (packets ++ packets', part)

def demux (crc : Bytes → ℕ) (bs : Bytes) : Option (List Bytes) :=
  (readPages crc bs.length bs).bind fun pages ↦
    match joinPages [] pages with
    | (packets, []) => some packets
    | (_, _ :: _) => none

include hcrc in
theorem readPages_encode {pages : List Page} (h : ∀ p ∈ pages, p.Valid) {fuel : ℕ}
    (hfuel : pages.length ≤ fuel) :
    readPages crc fuel (pages.flatMap (Page.encode crc)) = some pages := by
  induction pages generalizing fuel with
  | nil => cases fuel <;> rfl
  | cons p pages ih =>
    cases fuel with
    | zero => simp at hfuel
    | succ fuel =>
      have hread := readPage_encode hcrc (h p (by simp)) (pages.flatMap (Page.encode crc))
      obtain ⟨b, bs, hb⟩ : ∃ b bs, p.encode crc ++ pages.flatMap (Page.encode crc) = b :: bs :=
        ⟨_, _, rfl⟩
      rw [List.flatMap_cons, hb, readPages, ← hb, hread, Option.bind_some]
      dsimp only
      rw [ih (fun q hq ↦ h q (by simp [hq])) (by simpa using hfuel)]
      rfl

theorem joinPages_append {ps qs : List Page} {part : Bytes} {packets packets' : List Bytes}
    (h : joinPages part ps = (packets, [])) (h' : joinPages [] qs = (packets', [])) :
    joinPages part (ps ++ qs) = (packets ++ packets', []) := by
  induction ps generalizing part packets with
  | nil =>
    obtain ⟨rfl, rfl⟩ : [] = packets ∧ part = [] := by simpa [joinPages] using h
    exact h'
  | cons p ps ih =>
    simp only [joinPages, Prod.mk.injEq] at h
    obtain ⟨rfl, hrest⟩ := h
    simp only [List.cons_append, joinPages, ih (Prod.ext rfl hrest), List.append_assoc]

theorem length_le_encode (pages : List Page) :
    pages.length ≤ (pages.flatMap (Page.encode crc)).length := by
  induction pages with
  | nil => exact Nat.le_refl _
  | cons p pages ih =>
    have hpos : 4 ≤ (p.encode crc).length := by simp [Page.encode, Page.head, capture]
    rw [List.flatMap_cons, List.length_append, List.length_cons]
    omega

include hcrc in
/-- A stream of whole packets is read back as those packets. -/
theorem demux_encode {pages : List Page} {packets : List Bytes} (h : ∀ p ∈ pages, p.Valid)
    (hjoin : joinPages [] pages = (packets, [])) :
    demux crc (pages.flatMap (Page.encode crc)) = some packets := by
  rw [demux, readPages_encode hcrc h (length_le_encode pages), Option.bind_some, hjoin]

end Pages

end OpusFleet.Library.Ogg
