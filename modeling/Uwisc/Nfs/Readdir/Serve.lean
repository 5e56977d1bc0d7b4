import Uwisc.Nfs.Readdir

/-!
# The decoder of the client

What `xdr_getrddirres` stores, for a reply of any bytes, and what it makes of the entries a
server sends.

* `within_iff`: exactly when all that is stored is within the buffer. The number of the file and
  the length of the name are stored before the size of the entry is checked (`Crowded`);
* `getEntries_sent`: entries that take less than the buffer has are returned, one after the other.
-/

namespace Uwisc.Nfs

open Lib List Ufs.Dir

variable {b b' : Buffer} {dp count namlen : ℕ} {size : ℕ} {xdrs rest : List UInt8}

/-! ### Any reply -/

/-- The length of the name of an entry (`u_short`). -/
def namlenOf (xdrs : List UInt8) : ℕ := decode ((xdrs.drop 4).take 4).reverse % 2 ^ 16

/-- How many bytes an entry has in a reply, behind the mark that there is one. -/
def entryLen (namlen : ℕ) : ℕ := 8 + (namlen + rndup namlen) + 4

/-- There is another entry. -/
def Marked (xdrs : List UInt8) : Prop := 4 ≤ xdrs.length ∧ decode (xdrs.take 4).reverse ≠ 0

/-- The first `count - size` bytes are filled by whole entries; what comes then is `rest`. -/
inductive Follows : ℕ → List UInt8 → ℕ → List UInt8 → Prop
  | refl (size : ℕ) (xdrs : List UInt8) : Follows size xdrs size xdrs
  | entry {size size' : ℕ} {xdrs rest : List UInt8} : Marked xdrs →
      entryLen (namlenOf (xdrs.drop 4)) ≤ (xdrs.drop 4).length →
      reclen (namlenOf (xdrs.drop 4)) ≤ size →
      reclen (namlenOf (xdrs.drop 4)) % 2 ^ 16 < size →
      Follows (size - reclen (namlenOf (xdrs.drop 4)) % 2 ^ 16)
        ((xdrs.drop 4).drop (entryLen (namlenOf (xdrs.drop 4)))) size' rest →
      Follows size xdrs size' rest

/-- There is no room for the beginning of an entry that is there. -/
def Cut (size : ℕ) (xdrs : List UInt8) : Prop :=
  size < 4 ∧ 4 ≤ xdrs.length ∨ size < 8 ∧ 8 ≤ xdrs.length

/-- Entries lead to another one that is cut. -/
def LeadsToCut (size : ℕ) (xdrs : List UInt8) : Prop :=
  ∃ size' rest, Follows size xdrs size' rest ∧ Marked rest ∧ Cut size' (rest.drop 4)

/-- The entries of a reply fill the buffer up to less than eight bytes, and there is another. -/
def Crowded (count : ℕ) (reply : List UInt8) : Prop :=
  4 ≤ reply.length ∧ decode (reply.take 4).reverse = NFS_OK ∧ LeadsToCut count (reply.drop 4)

/-- All that was stored is within the buffer. -/
def Buffer.Within (b : Buffer) (count : ℕ) : Prop := ∀ p ∈ b.stored, p.1 + p.2 ≤ count

theorem within_put {a : ℕ} {l : List UInt8} :
    (b.put a l).Within count ↔ a + l.length ≤ count ∧ b.Within count := forall_mem_cons

theorem getlong_eq (h : 4 ≤ xdrs.length) :
    getlong xdrs = some (decode (xdrs.take 4).reverse, xdrs.drop 4) := if_pos h

theorem getlong_none (h : ¬4 ≤ xdrs.length) : getlong xdrs = none := if_neg h

theorem marked_iff {valid : ℕ} {xdrs' : List UInt8} (h : getlong xdrs = some (valid, xdrs')) :
    xdrs' = xdrs.drop 4 ∧ (Marked xdrs ↔ valid ≠ 0) := by
  rw [getlong] at h
  split_ifs at h with hlen
  cases h
  exact ⟨rfl, and_iff_right hlen⟩

theorem reclen_ge (namlen : ℕ) : namlen + 10 ≤ reclen namlen ∧ 12 ≤ reclen namlen := by
  rw [reclen]
  omega

/-- The buffer with the beginning of an entry, the file number and the length of the name. -/
def Buffer.begin (b : Buffer) (dp : ℕ) (xdrs : List UInt8) : Buffer :=
  (b.put dp (encode 4 (decode (xdrs.take 4).reverse))).put (dp + 6)
    (encode 2 (decode ((xdrs.drop 4).take 4).reverse))

/-- The buffer with the bytes of the name as well. -/
def Buffer.name (b : Buffer) (dp : ℕ) (xdrs : List UInt8) : Buffer :=
  (b.begin dp xdrs).put (dp + 8) ((xdrs.drop 8).take (namlenOf xdrs))

theorem getEntry_none (h : xdrs.length < 4) : getEntry b dp size xdrs = (b, none) := by
  rw [getEntry, getlong_none (by omega)]

theorem getEntry_fileno (h : 4 ≤ xdrs.length) (h' : xdrs.length < 8) :
    getEntry b dp size xdrs = (b.put dp (encode 4 (decode (xdrs.take 4).reverse)), none) := by
  rw [getEntry, getlong_eq h]
  have hnone : getlong (xdrs.drop 4) = none := getlong_none (by rw [length_drop]; omega)
  simp only [hnone]

theorem getEntry_eq (h : 8 ≤ xdrs.length) : getEntry b dp size xdrs =
    if size < reclen (namlenOf xdrs) then (b.begin dp xdrs, none)
    else if entryLen (namlenOf xdrs) ≤ xdrs.length then
      (((b.name dp xdrs).put (dp + 4) (encode 2 (reclen (namlenOf xdrs)))).put
          (dp + 8 + namlenOf xdrs) [0],
        some ⟨reclen (namlenOf xdrs) % 2 ^ 16,
          decode (((xdrs.drop (8 + (namlenOf xdrs + rndup (namlenOf xdrs)))).take 4).reverse),
          xdrs.drop (entryLen (namlenOf xdrs))⟩)
    else (b.name dp xdrs, none) := by
  have hlong : getlong (xdrs.drop 4) = some (decode ((xdrs.drop 4).take 4).reverse, xdrs.drop 8) := by
    rw [getlong_eq (by rw [length_drop]; omega), drop_drop]
  rw [getEntry, getlong_eq (by omega)]
  simp only [hlong, getopaque, Int.ofNat_lt]
  rw [show decode ((xdrs.drop 4).take 4).reverse % 2 ^ 16 = namlenOf xdrs from rfl]
  by_cases hsize : size < reclen (namlenOf xdrs)
  · rw [if_pos hsize, if_pos hsize]
    rfl
  rw [if_neg hsize, if_neg hsize]
  by_cases hname : namlenOf xdrs + rndup (namlenOf xdrs) ≤ (xdrs.drop 8).length
  · rw [if_pos hname]
    simp only [drop_drop]
    rw [length_drop] at hname
    by_cases hlen : entryLen (namlenOf xdrs) ≤ xdrs.length
    · rw [if_pos hlen]
      rw [entryLen] at hlen
      rw [getlong_eq (by rw [length_drop]; omega), drop_drop]
      rfl
    · rw [if_neg hlen]
      rw [entryLen] at hlen
      rw [getlong_none (by rw [length_drop]; omega)]
      rfl
  · rw [if_neg hname, if_neg (by rw [length_drop] at hname; rw [entryLen]; omega)]
    rfl

/-- An entry is stored within the buffer, unless it is cut. -/
theorem getEntry_within (hsize : dp + size = count) (hb : b.Within count) :
    (getEntry b dp size xdrs).1.Within count ↔ ¬Cut size xdrs := by
  have hname : ∀ k, reclen (namlenOf xdrs) ≤ size → k ≤ namlenOf xdrs →
      dp + 8 + k + 1 ≤ count := fun k hk hle => by
    have := reclen_ge (namlenOf xdrs)
    omega
  rcases lt_or_ge xdrs.length 4 with hlen | hlen
  · rw [getEntry_none hlen, Cut]
    exact iff_of_true hb (by omega)
  · rcases lt_or_ge xdrs.length 8 with hlen' | hlen'
    · rw [getEntry_fileno hlen hlen', within_put, length_encode, Cut]
      simp only [hb, and_true]
      omega
    · have hbegin : (b.begin dp xdrs).Within count ↔ ¬Cut size xdrs := by
        rw [Buffer.begin, within_put, within_put, length_encode, length_encode, Cut]
        simp only [hb, and_true]
        omega
      rw [getEntry_eq hlen']
      by_cases hroom : size < reclen (namlenOf xdrs)
      · rw [if_pos hroom, hbegin]
      · have := reclen_ge (namlenOf xdrs)
        have hcut : ¬Cut size xdrs := by
          rw [Cut]
          omega
        have hall : (b.name dp xdrs).Within count := by
          rw [Buffer.name, within_put, length_take]
          exact ⟨by have := hname _ (by omega) le_rfl; omega, hbegin.2 hcut⟩
        rw [if_neg hroom]
        refine iff_of_true ?_ hcut
        split_ifs with hlen
        · rw [within_put, within_put, length_encode, length_singleton]
          exact ⟨hname _ (by omega) le_rfl, by omega, hall⟩
        · exact hall

/-- An entry is decoded if there is all of it, and room for it. -/
theorem getEntry_snd (b : Buffer) (dp size : ℕ) (xdrs : List UInt8) :
    ((getEntry b dp size xdrs).2 = none ↔
      ¬(entryLen (namlenOf xdrs) ≤ xdrs.length ∧ reclen (namlenOf xdrs) ≤ size)) ∧
    ∀ g, (getEntry b dp size xdrs).2 = some g → g.d_reclen = reclen (namlenOf xdrs) % 2 ^ 16 ∧
      g.xdrs = xdrs.drop (entryLen (namlenOf xdrs)) := by
  have hge : 12 ≤ entryLen (namlenOf xdrs) := by
    rw [entryLen]
    omega
  rcases lt_or_ge xdrs.length 4 with hlen | hlen
  · rw [getEntry_none hlen]
    exact ⟨iff_of_true rfl (by omega), by simp⟩
  · rcases lt_or_ge xdrs.length 8 with hlen' | hlen'
    · rw [getEntry_fileno hlen hlen']
      exact ⟨iff_of_true rfl (by omega), by simp⟩
    · rw [getEntry_eq hlen']
      split_ifs with hroom hall
      · exact ⟨iff_of_true rfl (by omega), by simp⟩
      · refine ⟨iff_of_false (by simp) (by omega), fun g hg => ?_⟩
        cases hg
        exact ⟨rfl, rfl⟩
      · exact ⟨iff_of_true rfl (by omega), by simp⟩

/-! ### The loop -/

variable {z : ℤ} {offset : ℕ} {g : Got}

theorem getEntries_unmarked (h : ¬Marked xdrs) : (getEntries b dp z offset xdrs).1 = b := by
  rw [getEntries]
  rcases hlong : getlong xdrs with - | ⟨valid, xdrs'⟩
  · rfl
  · have hzero : valid = 0 := by
      by_contra hne
      exact h ((marked_iff hlong).2.2 hne)
    simp only [if_pos hzero]
    rcases getlong xdrs' with - | ⟨rd_eof, -⟩
    · rfl
    · rfl

theorem getEntries_marked (h : Marked xdrs) : getEntries b dp z offset xdrs =
    match getEntry b dp z (xdrs.drop 4) with
    | (b, none) => (b, none)
    | (b, some g) =>
      if z - g.d_reclen ≤ 0 then (b, none)
      else getEntries b (dp + g.d_reclen) (z - g.d_reclen) g.offset g.xdrs := by
  rw [getEntries]
  split
  · next hnone => exact absurd (hnone.symm.trans (getlong_eq h.1)) (by simp)
  · next valid xdrs' hlong =>
    obtain ⟨rfl, hvalid⟩ := marked_iff hlong
    rw [if_neg (hvalid.1 h)]
    split
    · next hg => simp only [hg]
    · next hg => simp only [hg]

theorem leadsToCut_iff : LeadsToCut size xdrs ↔ Marked xdrs ∧ (Cut size (xdrs.drop 4) ∨
    (entryLen (namlenOf (xdrs.drop 4)) ≤ (xdrs.drop 4).length ∧
      reclen (namlenOf (xdrs.drop 4)) ≤ size ∧ reclen (namlenOf (xdrs.drop 4)) % 2 ^ 16 < size) ∧
      LeadsToCut (size - reclen (namlenOf (xdrs.drop 4)) % 2 ^ 16)
        ((xdrs.drop 4).drop (entryLen (namlenOf (xdrs.drop 4))))) := by
  constructor
  · rintro ⟨size', rest, hfol, hmark, hcut⟩
    cases hfol with
    | refl => exact ⟨hmark, .inl hcut⟩
    | entry h hall hroom hlt hfol =>
      exact ⟨h, .inr ⟨⟨hall, hroom, hlt⟩, size', rest, hfol, hmark, hcut⟩⟩
  · rintro ⟨hmark, hcut | ⟨⟨hall, hroom, hlt⟩, size', rest, hfol, hmark', hcut⟩⟩
    · exact ⟨size, xdrs, .refl _ _, hmark, hcut⟩
    · exact ⟨size', rest, .entry hmark hall hroom hlt hfol, hmark', hcut⟩

/-- The loop stores within the buffer, unless entries lead to one that is cut. -/
theorem getEntries_within (hz : z = size) (hsize : dp + size = count) (hb : b.Within count) :
    (getEntries b dp z offset xdrs).1.Within count ↔ ¬LeadsToCut size xdrs := by
  induction hlen : xdrs.length using Nat.strong_induction_on
    generalizing xdrs b dp z size offset with | _ n ih => ?_
  subst hz
  rw [leadsToCut_iff]
  by_cases hmark : Marked xdrs
  · have hwit : (getEntry b dp size (xdrs.drop 4)).1.Within count ↔ ¬Cut size (xdrs.drop 4) :=
      getEntry_within hsize hb
    obtain ⟨hnone, hsome⟩ := getEntry_snd b dp size (xdrs.drop 4)
    have hge := reclen_ge (namlenOf (xdrs.drop 4))
    have hmod := Nat.mod_le (reclen (namlenOf (xdrs.drop 4))) (2 ^ 16)
    rw [getEntries_marked hmark, and_iff_right hmark]
    rcases hg : getEntry b dp size (xdrs.drop 4) with ⟨b1, - | g⟩
    · rw [hg] at hwit hnone
      rw [hwit, not_iff_not]
      exact ⟨.inl, fun h => h.resolve_right fun h => hnone.1 rfl ⟨h.1.1, h.1.2.1⟩⟩
    · rw [hg] at hwit hnone hsome
      have hok := not_not.1 (mt hnone.2 (by simp))
      have hcut : ¬Cut size (xdrs.drop 4) := by
        rw [Cut]
        omega
      obtain ⟨hrec, hxdrs⟩ := hsome g rfl
      rw [or_iff_right hcut, and_iff_right hok.1, and_iff_right hok.2, ← hrec, ← hxdrs]
      by_cases hfull : (size : ℤ) - g.d_reclen ≤ 0
      · simp only [if_pos hfull]
        exact iff_of_true (hwit.2 hcut) (by omega)
      · simp only [if_neg hfull]
        rw [and_iff_right (by omega)]
        refine ih g.xdrs.length ?_ (by omega) (by omega) (hwit.2 hcut) rfl
        rw [← hlen, hxdrs, length_drop, length_drop, entryLen]
        have := hmark.1
        omega
  · rw [getEntries_unmarked hmark]
    exact iff_of_true hb fun h => hmark h.1

/-- The decoder stores within the buffer exactly if the reply does not crowd it. -/
theorem within_iff (mem : Mem) (count : ℕ) (reply : List UInt8) :
    (xdr_getrddirres mem count reply).1.Within count ↔ ¬Crowded count reply := by
  have hemp : Buffer.Within ⟨mem, []⟩ count := by simp [Buffer.Within]
  rw [xdr_getrddirres, Crowded]
  by_cases hlen : 4 ≤ reply.length
  · rw [getlong_eq hlen, and_iff_right hlen]
    by_cases hok : decode (reply.take 4).reverse = NFS_OK
    · simp only [if_neg (not_not.2 hok), and_iff_right hok]
      exact getEntries_within rfl (zero_add count) hemp
    · simp only [if_pos hok]
      exact iff_of_true hemp fun h => hok h.1
  · rw [getlong_none hlen]
    exact iff_of_true hemp fun h => hlen h.1

/-!
### Entries that are sent

What the decoder of the client makes of the entries of a reply that an encoder has written.

* `getEntries_sent`: entries that take less than the buffer has are returned, one after the other.
-/

open Nat Option

/-- An entry in a reply, with the offset of what is behind it. -/
structure Sent where
  d_fileno : ℕ
  d_name : Name
  offset : ℕ

/-- Its bytes. -/
def Sent.entry (e : Sent) : List UInt8 :=
  putlong 1 ++ (putlong e.d_fileno ++ (putlong e.d_name.length ++ (e.d_name ++
    replicate (rndup e.d_name.length) 0) ++ putlong e.offset))

/-- An entry of a file, as it fits in the numbers that are sent. -/
structure Sent.Ok (e : Sent) : Prop where
  pos : e.d_fileno ≠ 0
  fileno : e.d_fileno < 2 ^ 32
  name : e.d_name.length ≤ NFS_MAXNAMLEN
  offset : e.offset < 2 ^ 32

/-- How many bytes entries take in a reply, and in the buffer of the client. -/
def sentLen (p : List Sent) : ℕ := (p.map fun e => e.entry.length).sum
def keptLen (p : List Sent) : ℕ := (p.map fun e => reclen e.d_name.length).sum

/-- The offset behind the last one. -/
def lastOffset (offset : ℕ) (p : List Sent) : ℕ := p.foldl (fun _ e => e.offset) offset

variable {b : Buffer} {dp size offset : ℕ} {e : Sent} {p : List Sent} {xdrs : List UInt8}

@[simp] theorem length_putlong (l : ℕ) : (putlong l).length = 4 := by simp [putlong]

theorem getlong_putlong {l : ℕ} (h : l < 2 ^ 32) : getlong (putlong l ++ xdrs) = some (l, xdrs) := by
  have hlen := length_putlong l
  rw [getlong_eq (by rw [length_append]; omega), ← hlen, take_left, drop_left, putlong,
    reverse_reverse, decode_encode (by omega)]

theorem length_entry (e : Sent) :
    e.entry.length = 16 + (e.d_name.length + rndup e.d_name.length) := by
  simp only [Sent.entry, length_append, length_putlong, length_replicate]
  omega

/-- The memory with the record of an entry. -/
def record (m : Mem) (dp : ℕ) (e : Sent) : Mem :=
  store (store (store (store (store m dp (encode 4 e.d_fileno)) (dp + 6) (encode 2 e.d_name.length))
    (dp + 8) e.d_name) (dp + 4) (encode 2 (reclen e.d_name.length))) (dp + 8 + e.d_name.length) [0]

theorem getEntry_sent (b : Buffer) (dp : ℕ) (xdrs : List UInt8) (h : e.Ok)
    (hroom : reclen e.d_name.length ≤ size) :
    ∃ stored, getEntry b dp size (putlong e.d_fileno ++ (putlong e.d_name.length ++ (e.d_name ++
      replicate (rndup e.d_name.length) 0) ++ putlong e.offset) ++ xdrs) =
      (⟨record b.mem dp e, stored⟩, some ⟨reclen e.d_name.length, e.offset, xdrs⟩) := by
  have hname := h.name
  rw [NFS_MAXNAMLEN] at hname
  have hrec : reclen e.d_name.length < 2 ^ 16 := by
    rw [reclen]
    omega
  have hmod : e.d_name.length % 2 ^ 16 = e.d_name.length := mod_eq_of_lt (by omega)
  have hdrop : (e.d_name ++ (replicate (rndup e.d_name.length) 0 ++ (putlong e.offset ++ xdrs))).drop
      (e.d_name.length + rndup e.d_name.length) = putlong e.offset ++ xdrs := by
    rw [← drop_drop, drop_left]
    exact drop_left' (length_replicate ..)
  simp only [append_assoc, getEntry, getlong_putlong h.fileno,
    getlong_putlong (show e.d_name.length < 2 ^ 32 by omega), Int.ofNat_lt, hmod,
    if_neg hroom.not_gt, getopaque, take_left, hdrop]
  rw [if_pos (by simp only [length_append, length_replicate]; omega)]
  simp only [getlong_putlong h.offset, mod_eq_of_lt hrec]
  exact ⟨_, rfl⟩

/-- A record is what the entry was. -/
theorem record_spec (m : Mem) (dp : ℕ) (h : e.Ok) : SameOn m (record m dp e) 0 dp ∧
    d_reclen (record m dp e) dp = reclen e.d_name.length ∧
    DIRSIZ (record m dp e) dp ≤ reclen e.d_name.length ∧
    entry (record m dp e) dp = some (e.d_name, e.d_fileno) := by
  have hname := h.name
  have hfile := h.fileno
  rw [NFS_MAXNAMLEN] at hname
  have hlen : e.d_name.length < 256 ^ 2 := by omega
  have hrec : reclen e.d_name.length < 256 ^ 2 := by
    rw [reclen]
    omega
  let m1 := storeNum 4 m dp e.d_fileno
  let m2 := storeNum 2 m1 (dp + 6) e.d_name.length
  let m3 := store m2 (dp + 8) e.d_name
  let m4 := storeNum 2 m3 (dp + 4) (reclen e.d_name.length)
  -- what each of the stores leaves
  have h2 : ∀ {x y}, y ≤ dp + 6 ∨ dp + 8 ≤ x → SameOn m1 m2 x y := fun h => sameOn_storeNum h
  have h3 : ∀ {x y}, y ≤ dp + 8 → SameOn m2 m3 x y := fun h => sameOn_store (.inl h)
  have h4 : ∀ {x y}, y ≤ dp + 4 ∨ dp + 6 ≤ x → SameOn m3 m4 x y := fun h => sameOn_storeNum h
  have h5 : ∀ {x y}, y ≤ dp + 8 + e.d_name.length → SameOn m4 (record m dp e) x y :=
    fun h => sameOn_store (.inl h)
  have hnam : d_namlen (record m dp e) dp = e.d_name.length :=
    ((h3 le_rfl).trans ((h4 (.inr le_rfl)).trans (h5 (Nat.le_add_right _ _)))).load_eq le_rfl le_rfl |>.trans
      (load_storeNum hlen)
  have hino : d_ino (record m dp e) dp = e.d_fileno :=
    ((h2 (.inl (by omega))).trans ((h3 (by omega)).trans ((h4 (.inl le_rfl)).trans
      (h5 (by omega))))).load_eq le_rfl le_rfl |>.trans (load_storeNum (by omega))
  have hbyt : d_name (record m dp e) dp e.d_name.length = e.d_name :=
    ((h4 (.inr (by omega))).trans (h5 le_rfl)).bytes_eq le_rfl le_rfl |>.trans (bytes_store _ _ _)
  refine ⟨?_, ?_, ?_, ?_⟩
  · have h1 : SameOn m m1 0 dp := sameOn_storeNum (.inl le_rfl)
    exact h1.trans ((h2 (.inl (by omega))).trans ((h3 (by omega)).trans ((h4 (.inl (by omega))).trans
      (h5 (by omega)))))
  · exact ((h5 (by omega)).load_eq le_rfl le_rfl).trans (load_storeNum hrec)
  · rw [DIRSIZ, hnam, LDIRSIZ, reclen]
    omega
  · rw [entry, hino, if_neg h.pos, hnam, hbyt]

theorem getEntries_last {rd_eof : ℕ} {xdrs' rest : List UInt8} (h : getlong xdrs = some (0, xdrs'))
    (h' : getlong xdrs' = some (rd_eof, rest)) :
    getEntries b dp size offset xdrs = (b, some ⟨NFS_OK, dp, offset, rd_eof ≠ 0⟩) := by
  rw [getEntries]
  split
  · next hnone => exact absurd (hnone.symm.trans h) (by simp)
  · next valid xdrs1 hlong =>
    obtain ⟨rfl, rfl⟩ := Prod.mk.inj (some_inj.1 (hlong.symm.trans h))
    rw [if_pos rfl]
    simp only [h']

theorem getEntries_next {valid : ℕ} {xdrs' : List UInt8} {b' : Buffer} {g : Got} {z : ℤ}
    (h : getlong xdrs = some (valid, xdrs')) (hvalid : valid ≠ 0)
    (hg : getEntry b dp z xdrs' = (b', some g)) (hroom : ¬z - g.d_reclen ≤ 0) :
    getEntries b dp z offset xdrs = getEntries b' (dp + g.d_reclen) (z - g.d_reclen) g.offset g.xdrs := by
  obtain ⟨rfl, hmark⟩ := marked_iff h
  rw [getEntries_marked (hmark.2 hvalid), hg]
  simp only [if_neg hroom]

/-- Entries that take less than there is are returned one after the other. -/
theorem getEntries_sent (h : ∀ e ∈ p, e.Ok) (hroom : keptLen p < size) (rd_eof : Bool) :
    ∃ b', getEntries b dp size offset (p.flatMap Sent.entry ++
      (putlong 0 ++ putlong (if rd_eof then 1 else 0))) =
        (b', some ⟨NFS_OK, dp + keptLen p, lastOffset offset p, rd_eof⟩) ∧
      SameOn b.mem b'.mem 0 dp ∧
      (recordsFrom b'.mem (dp + keptLen p) dp).filterMap (entry b'.mem) =
        p.map fun e => (e.d_name, e.d_fileno) := by
  induction p generalizing b dp size offset with
  | nil =>
    refine ⟨b, ?_, SameOn.refl _ _ _, ?_⟩
    · have hzero : getlong (putlong 0 ++ putlong (if rd_eof then 1 else 0)) =
          some (0, putlong (if rd_eof then 1 else 0)) := getlong_putlong (by decide)
      have heof : getlong (putlong (if rd_eof then 1 else 0)) = some (if rd_eof then 1 else 0, []) := by
        have hlt : (if rd_eof then 1 else 0) < 2 ^ 32 := by split <;> decide
        rw [← append_nil (putlong _), getlong_putlong hlt]
      rw [flatMap_nil, nil_append, getEntries_last hzero heof]
      cases rd_eof <;> rfl
    · rw [recordsFrom, dif_neg (by simp [keptLen])]
      rfl
  | cons e p ih =>
    obtain ⟨hok, h⟩ := forall_mem_cons.1 h
    have hsum : keptLen (e :: p) = reclen e.d_name.length + keptLen p := by simp [keptLen]
    have hpos := reclen_ge e.d_name.length
    obtain ⟨stored, hent⟩ := getEntry_sent b dp (p.flatMap Sent.entry ++
      (putlong 0 ++ putlong (if rd_eof then 1 else 0))) hok (show _ ≤ size by omega)
    obtain ⟨b', hrun, hsame, hmap⟩ := @ih ⟨record b.mem dp e, stored⟩ (dp + reclen e.d_name.length)
      (size - reclen e.d_name.length) e.offset h (by omega)
    obtain ⟨hbef, hrec, hdir, hthis⟩ := record_spec b.mem dp hok
    have hle : reclen e.d_name.length ≤ size := by omega
    have hleft : ¬(size : ℤ) - reclen e.d_name.length ≤ 0 := by omega
    refine ⟨b', ?_, hbef.trans (hsame.mono le_rfl (Nat.le_add_right _ _)), ?_⟩
    · have hmark : ∀ xdrs, getlong (putlong 1 ++ xdrs) = some (1, xdrs) := fun _ =>
        getlong_putlong (by decide)
      rw [flatMap_cons, Sent.entry, append_assoc, append_assoc,
        getEntries_next (hmark _) Nat.one_ne_zero hent hleft, hsum, ← add_assoc]
      rw [Int.ofNat_sub hle] at hrun
      exact hrun
    · change SameOn (record b.mem dp e) b'.mem 0 _ at hsame
      have hrec' : d_reclen b'.mem dp = reclen e.d_name.length :=
        (d_reclen_congr (hsame.mono (Nat.zero_le _) (by omega))).trans hrec
      have hthis' : entry b'.mem dp = some (e.d_name, e.d_fileno) :=
        (entry_congr (hsame.mono (Nat.zero_le _) (by omega)) (hsame.mono (Nat.zero_le _) (by omega))).trans
          hthis
      rw [hsum, recordsFrom, dif_pos (by omega), filterMap_cons, hthis', hrec', map_cons,
        ← add_assoc, hmap]

/-!
### The server

What `rfs_readdir` replies, from any entry of a directory on, and how the encoder writes it.

* `skipEntries_records`, `putEntries_records`: the loops go along the records of the directory;
* `rfs_readdir_first`: the reply begins with the first record in use, in the block that has it;
* `rfs_readdir_none`: if there is none, the reply is empty.
-/

/-- A directory: whole blocks of records, of which those in use have names of `1` to `MAXNAMLEN`
    bytes. -/
structure Directory where
  ip : Inode
  wf : WellFormed ip
  whole : ip.i_size % DIRBLKSIZ = 0
  size_lt : ip.i_size < 2 ^ 31
  names : ∀ o ∈ records ip, d_ino ip.data o ≠ 0 →
    1 ≤ d_namlen ip.data o ∧ d_namlen ip.data o ≤ MAXNAMLEN

variable (d : Directory)

/-- A record is in use. -/
def Directory.inUse (o : ℕ) : Bool := d_ino d.ip.data o ≠ 0

/-- The records in use from an offset on. -/
def Directory.pending (o : ℕ) : List ℕ :=
  (recordsFrom d.ip.data d.ip.i_size o).filter d.inUse

/-- What is sent of a record. -/
def Directory.sent (o : ℕ) : Sent :=
  ⟨d_ino d.ip.data o, d_name d.ip.data o (d_namlen d.ip.data o), o + d_reclen d.ip.data o⟩

/-- The entries that are sent if there is room for so many bytes: up to the one that reaches it. -/
def fill : ℕ → List Sent → List Sent
  | _, [] => []
  | room, e :: p => if room ≤ e.entry.length then [e] else e :: fill (room - e.entry.length) p

variable {d} {buf : Mem} {base x y n pos : ℕ} {r : List ℕ}

/-- The buffer holds the bytes of the directory from `base` on, as many as `n`. -/
def Directory.Holds (d : Directory) (base n : ℕ) (buf : Mem) : Prop :=
  SameOn (fun i => d.ip.data (base + i)) buf 0 n

theorem load_shift (m : Mem) (k base a : ℕ) : load k (fun i => m (base + i)) a = load k m (base + a) := by
  simp only [load, bytes, add_assoc]

/-- The records of the directory are those in the buffer. -/
theorem Directory.Holds.record (h : d.Holds base n buf) (hok : RecOk d.ip.data x) (hlo : base ≤ x)
    (hhi : x + d_reclen d.ip.data x ≤ base + n) :
    d_reclen buf (x - base) = d_reclen d.ip.data x ∧ d_ino buf (x - base) = d_ino d.ip.data x ∧
      d_namlen buf (x - base) = d_namlen d.ip.data x ∧
      d_name buf (x - base) (d_namlen d.ip.data x) = d_name d.ip.data x (d_namlen d.ip.data x) := by
  have hsize := hok.size
  have hge := ldirsiz_ge (d_namlen d.ip.data x)
  rw [DIRSIZ] at hsize
  have hload : ∀ k j, j + k ≤ 8 → load k buf (x - base + j) = load k d.ip.data (x + j) := fun k j hj => by
    rw [h.load_eq (Nat.zero_le _) (by omega), load_shift, ← add_assoc, Nat.add_sub_cancel' hlo]
  refine ⟨hload 2 4 (by decide), hload 4 0 (by decide), hload 2 6 (by decide), ?_⟩
  have hbyt := h.bytes_eq (Nat.zero_le (x - base + 8)) (n := d_namlen d.ip.data x) (by omega)
  rw [d_name, hbyt, d_name]
  simp only [bytes]
  refine map_congr_left fun i _ => ?_
  congr 1
  omega

/-! ### The loops -/

/-- Records that are before the offset, or not in use, are skipped. -/
theorem skipEntries_records {rd_size rda_offset : ℕ} (h : d.Holds base n buf) (hn : n ≤ rd_size)
    (hr : Tiles d.ip.data x y r) (hlo : base ≤ x) (hhi : y ≤ base + n)
    (hskip : ∀ o ∈ r, o + d_reclen d.ip.data o ≤ rda_offset ∨ d_ino d.ip.data o = 0) :
    skipEntries buf rd_size rda_offset (x - base) x = skipEntries buf rd_size rda_offset (y - base) y := by
  induction hr with
  | nil => rfl
  | @cons x y r hok hr ih =>
    obtain ⟨hthis, hskip⟩ := forall_mem_cons.1 hskip
    have hle := hr.le
    have hpos := hok.pos
    obtain ⟨hrec, hino, -, -⟩ := h.record hok hlo (by omega)
    rw [skipEntries, if_pos ⟨by omega, by rwa [hrec, hino]⟩, hrec, if_neg (by omega),
      ← Nat.sub_add_comm hlo]
    exact ih (by omega) hhi hskip

/-- The encoder goes along the records, up to the one with which it has no more room. -/
theorem putEntries_records {rd_bufsize pos : ℕ} {size : ℤ} (h : d.Holds base n buf)
    (hr : Tiles d.ip.data x y r) (hlo : base ≤ x) (hhi : y ≤ base + n) (hsize : (y - x : ℕ) ≤ size)
    (hnames : ∀ o ∈ r, d_ino d.ip.data o ≠ 0 → d_namlen d.ip.data o ≤ MAXNAMLEN) (hpos : pos < rd_bufsize) :
    putEntries buf rd_bufsize (x - base) size x pos =
      if rd_bufsize - pos ≤ sentLen ((r.filter d.inUse).map d.sent) then
        some ((fill (rd_bufsize - pos) ((r.filter d.inUse).map d.sent)).flatMap Sent.entry, true)
      else
        (putEntries buf rd_bufsize (y - base) (size - (y - x : ℕ)) y
          (pos + sentLen ((r.filter d.inUse).map d.sent))).map fun q =>
            (((r.filter d.inUse).map d.sent).flatMap Sent.entry ++ q.1, q.2) := by
  induction hr generalizing size pos with
  | nil x =>
    rw [if_neg (by simp [sentLen]; omega)]
    simp [sentLen]
  | @cons x y r hok hr ih =>
    obtain ⟨hname, hnames⟩ := forall_mem_cons.1 hnames
    have hle := hr.le
    have hlen := hok.pos
    have hdir := hok.size
    have hge := (ldirsiz_ge (d_namlen d.ip.data x)).1
    rw [DIRSIZ] at hdir
    obtain ⟨hrec, hino, hnam, hd_name⟩ := h.record hok hlo (by omega)
    have hx : x - base + d_reclen d.ip.data x = x + d_reclen d.ip.data x - base := by omega
    have hrs : size - d_reclen d.ip.data x - (y - (x + d_reclen d.ip.data x) : ℕ) = size - (y - x : ℕ) := by
      omega
    rw [putEntries, if_pos (by omega), hrec, hnam, if_neg (by omega), hino, hd_name, hx]
    by_cases huse : d_ino d.ip.data x = 0
    · have hfil : (x :: r).filter d.inUse = r.filter d.inUse := by
        simp [Directory.inUse, huse]
      rw [if_pos huse, hfil, ih (by omega) hhi (by omega) hnames hpos, hrs]
    · have hfil : (x :: r).filter d.inUse = x :: r.filter d.inUse := by
        simp [Directory.inUse, huse]
      have hput : putbytes (d_name d.ip.data x (d_namlen d.ip.data x)) NFS_MAXNAMLEN =
          some (putlong (d.sent x).d_name.length ++
            ((d.sent x).d_name ++ replicate (rndup (d.sent x).d_name.length) 0)) := by
        rw [putbytes, if_neg]
        · rfl
        · rw [d_name, length_bytes]
          exact (hname huse).not_gt
      have hsum : sentLen (((x :: r).filter d.inUse).map d.sent) =
          (d.sent x).entry.length + sentLen ((r.filter d.inUse).map d.sent) := by
        rw [hfil, sentLen, map_cons, map_cons, sum_cons, sentLen]
      rw [if_neg huse, hput, hsum, hfil, map_cons, fill]
      change (if (rd_bufsize : ℤ) ≤ (pos + (d.sent x).entry.length : ℕ) then _ else _) = _
      by_cases hfull : rd_bufsize - pos ≤ (d.sent x).entry.length
      · rw [if_pos (by omega), if_pos (by omega), if_pos hfull, flatMap_singleton]
        rfl
      · rw [if_neg (by omega), if_neg hfull]
        change (Option.map _ (putEntries _ _ _ _ _ (pos + (d.sent x).entry.length))) = _
        rw [ih (by omega) hhi (by omega) hnames (by omega), hrs, Nat.sub_sub]
        by_cases hmore : rd_bufsize - (pos + (d.sent x).entry.length) ≤ sentLen ((r.filter d.inUse).map d.sent)
        · rw [if_pos hmore, if_pos (by omega)]
          rfl
        · rw [if_neg hmore, if_neg (by omega), Option.map_map, add_assoc]
          refine congrArg (Option.map · _) (funext fun q => ?_)
          exact Prod.ext (append_assoc (d.sent x).entry _ _).symm rfl

/-! ### A reply -/

variable {o c f : ℕ} {u v w : List ℕ}

/-- Where the block begins that is read for the record `f`, at a request for `c` bytes from `o` on. -/
def start (o c f : ℕ) : ℕ :=
  o / DIRBLKSIZ * DIRBLKSIZ + (f - o / DIRBLKSIZ * DIRBLKSIZ) / c * c

/-- The end of the block, or of the directory. -/
def Directory.blockEnd (d : Directory) (o c f : ℕ) : ℕ :=
  min (start o c f + c / DIRBLKSIZ * DIRBLKSIZ) d.ip.i_size

theorem Directory.dirsize_eq (d : Directory) : d.ip.dirsize = d.ip.i_size := by
  have := d.whole
  rw [Inode.dirsize, roundup, DIRBLKSIZ] at *
  omega

/-- The records from the start of a block up to one that is not skipped. -/
structure Directory.Skipped (d : Directory) (o y : ℕ) (r : List ℕ) : Prop where
  tiles : Tiles d.ip.data (o / DIRBLKSIZ * DIRBLKSIZ) y r
  skipped : ∀ p ∈ r, p + d_reclen d.ip.data p ≤ o ∨ d_ino d.ip.data p = 0

theorem skipped_of_dead (hu : Tiles d.ip.data 0 o u) (hv : Tiles d.ip.data o f v)
    (hdead : ∀ p ∈ v, d_ino d.ip.data p = 0) : ∃ r, d.Skipped o f r := by
  obtain ⟨u1, u2, rfl, -, hu⟩ := hu.split_at (mul_mod_left (o / DIRBLKSIZ) DIRBLKSIZ) (Nat.zero_le _)
    (div_mul_le_self _ _)
  refine ⟨u2 ++ v, hu.append hv, fun p hp => ?_⟩
  rcases mem_append.1 hp with hp | hp
  · exact .inl (hu.bounds hp).2
  · exact .inr (hdead p hp)

/-- How many bytes of a block there are. -/
def Directory.blockLen (d : Directory) (base c : ℕ) : ℕ :=
  min (c / DIRBLKSIZ * DIRBLKSIZ) (d.ip.i_size - base)

/-- A block is read, and the first records are skipped. -/
theorem nxtblk_skipped (buf : Mem) {base : ℕ} (hbase : base = o / DIRBLKSIZ * DIRBLKSIZ)
    (h : d.Skipped o y r) (hy : y ≤ base + d.blockLen base c) (hc : DIRBLKSIZ ≤ c) :
    ∃ buf', d.Holds base (d.blockLen base c) buf' ∧ nxtblk d.ip buf o c =
      (skipEntries buf' (d.blockLen base c + c % DIRBLKSIZ) o (y - base) y).map fun q =>
        { rd_bufsize := c - q.1
          rd_offset := q.2
          rd_size := (d.blockLen base c + c % DIRBLKSIZ : ℕ) - q.1
          rd_eof := d.blockLen base c < c / DIRBLKSIZ * DIRBLKSIZ
          rd_entries := q.1
          buf := buf' } := by
  have hle : c / DIRBLKSIZ * DIRBLKSIZ ≤ c := div_mul_le_self _ _
  have hmod : c / DIRBLKSIZ * DIRBLKSIZ + c % DIRBLKSIZ = c := div_add_mod' c DIRBLKSIZ
  have hlen : d.blockLen base c ≤ c / DIRBLKSIZ * DIRBLKSIZ := min_le_left _ _
  have hsize : c - (c / DIRBLKSIZ * DIRBLKSIZ - d.blockLen base c) = d.blockLen base c + c % DIRBLKSIZ := by
    omega
  have hholds : d.Holds base (d.blockLen base c) (store buf 0 (bytes d.ip.data base (d.blockLen base c))) :=
    fun i _ hi => by
      rw [store, if_pos (by rw [length_bytes]; omega)]
      simp [bytes, hi]
  have hread : ufs_readdir d.ip buf base c = some
      (store buf 0 (bytes d.ip.data base (d.blockLen base c)),
        c / DIRBLKSIZ * DIRBLKSIZ - d.blockLen base c) := by
    rw [ufs_readdir, if_neg (not_or.2 ⟨hc.not_gt, not_not.2 (hbase ▸ mul_mod_left _ _)⟩)]
    simp only [Nat.sub_sub_self hle]
    rfl
  refine ⟨_, hholds, ?_⟩
  rw [nxtblk, max_eq_right hc, ← hbase, hread]
  simp only [hsize]
  have hskip := skipEntries_records hholds (Nat.le_add_right _ (c % DIRBLKSIZ)) (hbase ▸ h.tiles) le_rfl hy
    h.skipped
  rw [Nat.sub_self] at hskip
  rw [hskip]
  refine congrArg (Option.map · _) (funext fun q => ?_)
  congr 1
  exact decide_eq_decide.2 (by omega)

variable {kmem : ℕ → Mem}

/-- If nothing in a block is to be sent, the next one is read. -/
theorem rfs_readdir_again {base : ℕ} (hbase : base = o / DIRBLKSIZ * DIRBLKSIZ)
    (h : d.Skipped o (base + c) r) (hc : DIRBLKSIZ ≤ c) (hwhl : c % DIRBLKSIZ = 0)
    (hend : base + c ≤ d.ip.i_size) :
    rfs_readdir d.ip kmem o c = rfs_readdir d.ip kmem (base + c) c := by
  have hcnt : c / DIRBLKSIZ * DIRBLKSIZ = c := by
    have := div_add_mod' c DIRBLKSIZ
    omega
  have hlen : d.blockLen base c = c := by
    rw [Directory.blockLen, hcnt]
    omega
  obtain ⟨buf, -, hblk⟩ := nxtblk_skipped (kmem o) hbase h (by omega) hc
  rw [hlen, hwhl, add_zero, Nat.add_sub_cancel_left, skipEntries, if_neg (by omega)] at hblk
  have hpos : DIRBLKSIZ = 512 := rfl
  rw [rfs_readdir]
  split
  · next hnone => rw [hblk] at hnone; exact absurd hnone (by simp)
  · next rd hrd =>
    rw [hblk] at hrd
    cases hrd
    rw [dif_pos ⟨by simp only; omega, by simp, by simp [hcnt]⟩]

/-- A reply of one block. -/
theorem rfs_readdir_block {rd : Rddirres} (h : nxtblk d.ip (kmem o) o c = some rd)
    (hagn : ¬rd.again) : rfs_readdir d.ip kmem o c = some rd := by
  rw [rfs_readdir]
  split
  · next hnone => rw [h] at hnone; exact absurd hnone (by simp)
  · next rd hrd =>
    rw [h] at hrd
    cases hrd
    rw [dif_neg hagn]

/-- The blocks before the one that is read for the first record in use are skipped. -/
theorem rfs_readdir_first (hu : Tiles d.ip.data 0 o u)
    (hv : Tiles d.ip.data o f v) (hw : Tiles d.ip.data f d.ip.i_size (f :: w))
    (hdead : ∀ o ∈ v, d_ino d.ip.data o = 0) (hf : d_ino d.ip.data f ≠ 0) (hc : DIRBLKSIZ ≤ c)
    (hwhl : c % DIRBLKSIZ = 0 ∨ f < o / DIRBLKSIZ * DIRBLKSIZ + c / DIRBLKSIZ * DIRBLKSIZ) :
    ∃ buf, d.Holds (start o c f) (d.blockEnd o c f - start o c f) buf ∧
      start o c f ≤ f ∧ f < d.blockEnd o c f ∧
      rfs_readdir d.ip kmem o c = some
        { rd_bufsize := (c - (f - start o c f) : ℕ)
          rd_offset := f
          rd_size := (d.blockEnd o c f - f + c % DIRBLKSIZ : ℕ)
          rd_eof := d.ip.i_size < start o c f + c / DIRBLKSIZ * DIRBLKSIZ
          rd_entries := f - start o c f
          buf } := by
  obtain ⟨-, hok, hnx⟩ := chain_cons.1 hw
  have hsize := hnx.le
  have hpos := hok.pos
  have hle := hv.le
  have hcle : c / DIRBLKSIZ * DIRBLKSIZ ≤ c := div_mul_le_self _ _
  induction hn : d.ip.i_size - o / DIRBLKSIZ * DIRBLKSIZ using Nat.strong_induction_on
    generalizing o u v with | _ n ih => ?_
  obtain ⟨r, hr⟩ := skipped_of_dead hu hv hdead
  have hbo : o / DIRBLKSIZ * DIRBLKSIZ ≤ o := div_mul_le_self _ _
  by_cases hblk : f < o / DIRBLKSIZ * DIRBLKSIZ + c / DIRBLKSIZ * DIRBLKSIZ
  · -- the record is in the first block
    have hst : start o c f = o / DIRBLKSIZ * DIRBLKSIZ := by
      rw [start, div_eq_of_lt (show f - o / DIRBLKSIZ * DIRBLKSIZ < c by omega), zero_mul,
        add_zero]
    have hend : d.blockEnd o c f =
        o / DIRBLKSIZ * DIRBLKSIZ + d.blockLen (o / DIRBLKSIZ * DIRBLKSIZ) c := by
      rw [Directory.blockEnd, Directory.blockLen, hst]
      omega
    have hlen : f < o / DIRBLKSIZ * DIRBLKSIZ + d.blockLen (o / DIRBLKSIZ * DIRBLKSIZ) c := by
      rw [Directory.blockLen]
      omega
    obtain ⟨buf, hholds, hrun⟩ := nxtblk_skipped (kmem o) rfl hr hlen.le hc
    rw [hst, hend, Nat.add_sub_cancel_left]
    have hin : f + d_reclen d.ip.data f ≤
        o / DIRBLKSIZ * DIRBLKSIZ + d.blockLen (o / DIRBLKSIZ * DIRBLKSIZ) c := by
      have hchk := hok.chunk
      have hwho := d.whole
      rw [Directory.blockLen, DIRBLKSIZ] at *
      omega
    obtain ⟨hrec, hino, -, -⟩ := hholds.record hok (hbo.trans hle) hin
    rw [skipEntries, if_neg (by rw [hrec, hino]; omega)] at hrun
    refine ⟨buf, hholds, hbo.trans hle, hlen, ?_⟩
    rw [rfs_readdir_block hrun fun h => by have := h.2.1; simp only at this; omega]
    have heof : d.blockLen (o / DIRBLKSIZ * DIRBLKSIZ) c < c / DIRBLKSIZ * DIRBLKSIZ ↔
        d.ip.i_size < o / DIRBLKSIZ * DIRBLKSIZ + c / DIRBLKSIZ * DIRBLKSIZ := by
      rw [Directory.blockLen]
      omega
    simp only [heof, some.injEq, Rddirres.mk.injEq, and_true, true_and]
    omega
  · -- the block is skipped
    have hmod := hwhl.resolve_right hblk
    have hcnt : c / DIRBLKSIZ * DIRBLKSIZ = c := by
      have := div_add_mod' c DIRBLKSIZ
      omega
    rw [hcnt] at hblk
    have hnex : (o / DIRBLKSIZ * DIRBLKSIZ + c) % DIRBLKSIZ = 0 := by
      rw [add_mod, mul_mod_left, hmod]
      rfl
    obtain ⟨r1, r2, rfl, hr1, -⟩ := hr.tiles.split_at hnex (Nat.le_add_right _ _) (by omega)
    obtain ⟨v1, v2, rfl, hv1, hv2⟩ := hv.split_at hnex (by rw [DIRBLKSIZ] at *; omega) (by omega)
    have hnextbase : (o / DIRBLKSIZ * DIRBLKSIZ + c) / DIRBLKSIZ * DIRBLKSIZ =
        o / DIRBLKSIZ * DIRBLKSIZ + c := by
      have := div_add_mod' (o / DIRBLKSIZ * DIRBLKSIZ + c) DIRBLKSIZ
      omega
    have hst : start (o / DIRBLKSIZ * DIRBLKSIZ + c) c f = start o c f := by
      rw [start, start, hnextbase, div_eq_sub_div (show 0 < c by rw [DIRBLKSIZ] at hc; omega)
        (show c ≤ f - o / DIRBLKSIZ * DIRBLKSIZ by omega), Nat.sub_sub, add_mul, one_mul]
      omega
    have hagn : rfs_readdir d.ip kmem o c = _ := rfs_readdir_again rfl
      ⟨hr1, fun p hp => hr.skipped p (mem_append_left _ hp)⟩ hc hmod (by omega)
    rw [hagn, ← hst, Directory.blockEnd, ← hst, ← Directory.blockEnd]
    exact ih _ (by rw [hnextbase]; rw [DIRBLKSIZ] at *; omega) (hu.append hv1) hv2
      (fun p hp => hdead p (mem_append_right _ hp)) (.inl hmod) hv2.le rfl

/-- If no record in use is left, the reply is empty. -/
theorem rfs_readdir_none (hu : Tiles d.ip.data 0 o u)
    (hv : Tiles d.ip.data o d.ip.i_size v) (hdead : ∀ o ∈ v, d_ino d.ip.data o = 0)
    (hc : DIRBLKSIZ ≤ c) (hwhl : c % DIRBLKSIZ = 0) :
    ∃ rd, rfs_readdir d.ip kmem o c = some rd ∧ rd.rd_size = 0 ∧ rd.rd_eof = true := by
  have hcnt : c / DIRBLKSIZ * DIRBLKSIZ = c := by
    have := div_add_mod' c DIRBLKSIZ
    omega
  have hle := hv.le
  induction hn : d.ip.i_size - o / DIRBLKSIZ * DIRBLKSIZ using Nat.strong_induction_on
    generalizing o u v with | _ n ih => ?_
  obtain ⟨r, hr⟩ := skipped_of_dead hu hv hdead
  have hbo : o / DIRBLKSIZ * DIRBLKSIZ ≤ o := div_mul_le_self _ _
  by_cases hblk : o / DIRBLKSIZ * DIRBLKSIZ + c ≤ d.ip.i_size
  · have hnex : (o / DIRBLKSIZ * DIRBLKSIZ + c) % DIRBLKSIZ = 0 := by
      rw [add_mod, mul_mod_left, hwhl]
      rfl
    obtain ⟨r1, r2, rfl, hr1, -⟩ := hr.tiles.split_at hnex (Nat.le_add_right _ _) hblk
    obtain ⟨v1, v2, rfl, hv1, hv2⟩ := hv.split_at hnex (by rw [DIRBLKSIZ] at *; omega) hblk
    rw [rfs_readdir_again rfl ⟨hr1, fun p hp => hr.skipped p (mem_append_left _ hp)⟩ hc hwhl hblk]
    exact ih _ (by rw [DIRBLKSIZ] at *; omega) (hu.append hv1) hv2
      (fun p hp => hdead p (mem_append_right _ hp)) hv2.le rfl
  · have hlen : d.blockLen (o / DIRBLKSIZ * DIRBLKSIZ) c = d.ip.i_size - o / DIRBLKSIZ * DIRBLKSIZ := by
      rw [Directory.blockLen, hcnt]
      omega
    obtain ⟨buf, -, hrun⟩ := nxtblk_skipped (kmem o) rfl hr (by omega) hc
    rw [hlen, hwhl, add_zero, skipEntries, if_neg (by omega)] at hrun
    have heof : d.ip.i_size - o / DIRBLKSIZ * DIRBLKSIZ < c / DIRBLKSIZ * DIRBLKSIZ := by omega
    refine ⟨_, rfs_readdir_block hrun fun h => ?_, sub_self _, decide_eq_true heof⟩
    exact absurd h.2.2 (by simp [heof])

end Uwisc.Nfs
