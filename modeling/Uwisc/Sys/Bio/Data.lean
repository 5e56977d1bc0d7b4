import Uwisc.Sys.Bio.Own
import Uwisc.Sys.Bio.Spec

/-!
# The data in the buffers

What was last written to a byte of a vnode is on disk, or in a buffer that is dirty: delayed, or being
written (`Coherent`). A buffer that is valid has what was last written, unless the process that holds
it has changed it (`loose`).

* `Coherent.keep`: a buffer that stays what it is;
* `Coherent.replace`: a buffer that is not dirty, or has just been written, becomes another one;
* `Coherent.write`: a buffer becomes dirty, and what it has is what was last written.
-/

namespace Uwisc.Bio

open Function

variable {n : ℕ}

/-- A range of blocks that is hashed as one. -/
structure InRange (blkno : ℤ) (size : ℕ) : Prop where
  nonneg : 0 ≤ blkno
  aligned : size % DEV_BSIZE = 0
  within : blkno % RND + btodb size ≤ RND

/-- The buffer is of the vnode. -/
def Of (b : Buf) (vp : ℕ) : Prop := b.b_vp = some vp ∧ b.inval = false

/-- The byte is one of the buffer. -/
def Covers (b : Buf) (a : ℤ) : Prop :=
  b.b_blkno * DEV_BSIZE ≤ a ∧ a < b.b_blkno * DEV_BSIZE + b.b_bcount

/-- The byte, in the memory of the buffer. -/
def byte (b : Buf) (a : ℤ) : UInt8 := b.b_addr (a - b.b_blkno * DEV_BSIZE).toNat

/-- The driver has the buffer, for a write. -/
def Written (b : Buf) : Prop := b.active = true ∧ b.read = false

/-- What the buffer has is not on disk yet. -/
def Dirty (b : Buf) : Prop := b.delwri = true ∨ Written b

/-- What the buffers are of: no two of the same byte. -/
structure Shape (k : Kernel n) : Prop where
  plain : ∀ b, (k.buf b).error = false ∧ (k.buf b).nocache = false
  fits : ∀ b, (k.buf b).b_bcount ≤ (k.buf b).b_bufsize
  empty : ∀ b ∈ k.bfreelist .empty, (k.buf b).b_bufsize = 0
  range : ∀ b vp, Of (k.buf b) vp → InRange (k.buf b).b_blkno (k.buf b).b_bcount
  apart : ∀ b x vp a, Of (k.buf b) vp → Of (k.buf x) vp → Covers (k.buf b) a → Covers (k.buf x) a →
    x = b

/-- What the buffers have, where `cur` is what was last written. The buffers `loose` may have been
    changed since. -/
structure Coherent (k : Kernel n) (cur : ℕ → ℤ → UInt8) (loose : List (Fin n)) : Prop
    extends Shape k where
  delwri : ∀ b, (k.buf b).delwri → (k.buf b).done ∧ ((k.buf b).b_bcount ≠ 0 → ∃ vp, Of (k.buf b) vp)
  active : ∀ b, (k.buf b).active →
    (k.buf b).delwri = false ∧ ((k.buf b).b_bcount ≠ 0 → ∃ vp, Of (k.buf b) vp)
  good : ∀ b vp, Of (k.buf b) vp → ((k.buf b).done ∨ Written (k.buf b)) → b ∉ loose →
    ∀ a, Covers (k.buf b) a → byte (k.buf b) a = cur vp a
  disk : ∀ vp a, (∀ b, Of (k.buf b) vp → Covers (k.buf b) a → ¬Dirty (k.buf b)) →
    k.disk vp a = cur vp a

variable {k k' : Kernel n} {cur : ℕ → ℤ → UInt8} {loose loose' : List (Fin n)} {b : Fin n} {f : Buf}

theorem Coherent.loosen (h : Coherent k cur loose) (hsub : ∀ b ∈ loose, b ∈ loose') :
    Coherent k cur loose' :=
  { h with good := fun b vp hof hdone hb => h.good b vp hof hdone fun hb' => hb (hsub b hb') }

/-- A buffer that has not been changed is given up. -/
theorem Coherent.tighten (h : Coherent k cur (b :: loose))
    (hb : ∀ vp, Of (k.buf b) vp → ((k.buf b).done ∨ Written (k.buf b)) →
      ∀ a, Covers (k.buf b) a → byte (k.buf b) a = cur vp a) : Coherent k cur loose := by
  refine { h with good := fun x vp hof hdone hx => ?_ }
  by_cases hxb : x = b
  · subst hxb
    exact hb vp hof hdone
  · exact h.good x vp hof hdone fun hmem => (List.mem_cons.1 hmem).elim hxb hx

/-- The empty buffers, when one buffer changes. -/
def Empties (k k' : Kernel n) (b : Fin n) (f : Buf) : Prop :=
  ∀ x ∈ k'.bfreelist .empty, x ≠ b ∧ x ∈ k.bfreelist .empty ∨ x = b ∧ f.b_bufsize = 0

theorem Shape.empties (h : Shape k) (hbuf : k'.buf = update k.buf b f)
    (hemp : Empties k k' b f) : ∀ x ∈ k'.bfreelist .empty, (k'.buf x).b_bufsize = 0 := by
  intro x hx
  rw [hbuf]
  rcases hemp x hx with ⟨hne, hmem⟩ | ⟨rfl, hsize⟩
  · rw [update_of_ne hne]
    exact h.empty x hmem
  · rwa [update_self]

/-- A buffer that is not dirty, or has just been written, becomes another one, that is empty
    if it is dirty. -/
theorem Coherent.replace (h : Coherent k cur loose) (hbuf : k'.buf = update k.buf b f)
    (hemp : Empties k k' b f)
    (hdisk : ∀ vp a, k'.disk vp a = k.disk vp a ∨ k'.disk vp a = cur vp a)
    (hold : Dirty (k.buf b) → ∀ vp, Of (k.buf b) vp → ∀ a, Covers (k.buf b) a →
      k'.disk vp a = cur vp a)
    (hpln : f.error = false ∧ f.nocache = false) (hfits : f.b_bcount ≤ f.b_bufsize)
    (hnew : Dirty f → f.b_bcount = 0) (hdel : f.delwri → f.done = true)
    (hact : f.active → f.delwri = false ∧ (f.b_bcount ≠ 0 → ∃ vp, Of f vp))
    (hrng : ∀ vp, Of f vp → InRange f.b_blkno f.b_bcount)
    (hap : ∀ vp, Of f vp → ∀ x ≠ b, Of (k.buf x) vp → ∀ a, Covers f a → ¬Covers (k.buf x) a)
    (hgood : ∀ vp, Of f vp → f.done → b ∉ loose → ∀ a, Covers f a → byte f a = cur vp a) :
    Coherent k' cur loose := by
  have hself : k'.buf b = f := by rw [hbuf, update_self]
  have hoth : ∀ x ≠ b, k'.buf x = k.buf x := fun x hx => by rw [hbuf, update_of_ne hx]
  have hemp' : Dirty f → ∀ a, ¬Covers f a := by
    rintro hd a ⟨hlow, hhigh⟩
    rw [hnew hd] at hhigh
    omega
  refine ⟨⟨?_, ?_, ?_, ?_, ?_⟩, ?_, ?_, ?_, ?_⟩
  · intro x
    by_cases hx : x = b
    · rwa [hx, hself]
    · rw [hoth x hx]
      exact h.plain x
  · intro x
    by_cases hx : x = b
    · rwa [hx, hself]
    · rw [hoth x hx]
      exact h.fits x
  · exact h.empties hbuf hemp
  · intro x vp
    by_cases hx : x = b
    · rw [hx, hself]
      exact hrng vp
    · rw [hoth x hx]
      exact h.range x vp
  · intro x y vp a hofx hofy hx hy
    by_cases hxb : x = b <;> by_cases hyb : y = b
    · rw [hxb, hyb]
    · rw [hxb, hself] at hofx hx
      rw [hoth y hyb] at hofy hy
      exact absurd hy (hap vp hofx y hyb hofy a hx)
    · rw [hyb, hself] at hofy hy
      rw [hoth x hxb] at hofx hx
      exact absurd hx (hap vp hofy x hxb hofx a hy)
    · rw [hoth x hxb] at hofx hx
      rw [hoth y hyb] at hofy hy
      exact h.apart x y vp a hofx hofy hx hy
  · intro x
    by_cases hx : x = b
    · rw [hx, hself]
      exact fun hd => ⟨hdel hd, fun hne => absurd (hnew (.inl hd)) hne⟩
    · rw [hoth x hx]
      exact h.delwri x
  · intro x
    by_cases hx : x = b
    · rwa [hx, hself]
    · rw [hoth x hx]
      exact h.active x
  · intro x vp
    by_cases hx : x = b
    · rw [hx, hself]
      intro hof hdone hb a ha
      exact hgood vp hof (hdone.resolve_right fun hw => hemp' (.inr hw) a ha) hb a ha
    · rw [hoth x hx]
      exact h.good x vp
  · intro vp a hcln
    rcases hdisk vp a with hsame | hcur
    · by_cases hb : Dirty (k.buf b) ∧ Of (k.buf b) vp ∧ Covers (k.buf b) a
      · exact hold hb.1 vp hb.2.1 a hb.2.2
      · rw [hsame]
        refine h.disk vp a fun x hof hcov hdty => ?_
        by_cases hx : x = b
        · subst hx
          exact hb ⟨hdty, hof, hcov⟩
        · refine hcln x ?_ ?_ ?_
          all_goals rwa [hoth x hx]
    · exact hcur

/-- A buffer stays what it is: it may get more memory. -/
structure Stays (b f : Buf) : Prop where
  error : f.error = b.error
  nocache : f.nocache = b.nocache
  vp : f.b_vp = b.b_vp
  inval : f.inval = b.inval
  blkno : f.b_blkno = b.b_blkno
  bcount : f.b_bcount = b.b_bcount
  bufsize : b.b_bufsize ≤ f.b_bufsize
  addr : ∀ i < b.b_bcount, f.b_addr i = b.b_addr i

variable {a : ℤ} {vp : ℕ}

theorem Stays.of {b f : Buf} (h : Stays b f) : Of f vp ↔ Of b vp := by
  rw [Of, Of, h.vp, h.inval]

theorem Stays.covers {b f : Buf} (h : Stays b f) : Covers f a ↔ Covers b a := by
  rw [Covers, Covers, h.blkno, h.bcount]

theorem Stays.byte {b f : Buf} (h : Stays b f) (ha : Covers b a) : byte f a = byte b a := by
  obtain ⟨hlow, hhigh⟩ := ha
  rw [Bio.byte, Bio.byte, h.blkno]
  exact h.addr _ (by omega)

/-- What the buffers are of does not change. -/
structure Alike (k k' : Kernel n) : Prop where
  of : ∀ x vp, Of (k'.buf x) vp ↔ Of (k.buf x) vp
  covers : ∀ x a, Covers (k'.buf x) a ↔ Covers (k.buf x) a

theorem Stays.alike (hsty : Stays (k.buf b) f) (hbuf : k'.buf = update k.buf b f) :
    Alike k k' := by
  constructor
  · intro x vp
    by_cases hx : x = b
    · rw [hx, hbuf, update_self, hsty.of]
    · rw [hbuf, update_of_ne hx]
  · intro x a
    by_cases hx : x = b
    · rw [hx, hbuf, update_self, hsty.covers]
    · rw [hbuf, update_of_ne hx]

theorem Shape.keep (h : Shape k) (hbuf : k'.buf = update k.buf b f)
    (hemp : Empties k k' b f) (hsty : Stays (k.buf b) f) : Shape k' := by
  have halike := hsty.alike hbuf
  constructor
  · intro x
    by_cases hx : x = b
    · rw [hx, hbuf, update_self, hsty.error, hsty.nocache]
      exact h.plain b
    · rw [hbuf, update_of_ne hx]
      exact h.plain x
  · intro x
    by_cases hx : x = b
    · rw [hx, hbuf, update_self, hsty.bcount]
      exact (h.fits b).trans hsty.bufsize
    · rw [hbuf, update_of_ne hx]
      exact h.fits x
  · exact h.empties hbuf hemp
  · intro x vp hof
    have hrng := h.range x vp ((halike.of x vp).1 hof)
    by_cases hx : x = b
    · rwa [hx, hbuf, update_self, hsty.blkno, hsty.bcount, ← hx]
    · rwa [hbuf, update_of_ne hx]
  · intro x y vp a hofx hofy hx hy
    exact h.apart x y vp a ((halike.of x vp).1 hofx) ((halike.of y vp).1 hofy)
      ((halike.covers x a).1 hx) ((halike.covers y a).1 hy)

/-- One buffer changes its flags, or gets more memory: it is as dirty as it was, and not valid if it
    was not. -/
theorem Coherent.keep (h : Coherent k cur loose) (hbuf : k'.buf = update k.buf b f)
    (hemp : Empties k k' b f) (hdisk : k'.disk = k.disk) (hsty : Stays (k.buf b) f)
    (hdty : Dirty (k.buf b) → Dirty f)
    (hvalid : f.done ∨ Written f → (k.buf b).done ∨ Written (k.buf b))
    (hdel : f.delwri → (k.buf b).delwri ∧ f.done = true)
    (hact : f.active → f.delwri = false ∧ (f.b_bcount ≠ 0 → ∃ vp, Of f vp)) :
    Coherent k' cur loose := by
  have hself : k'.buf b = f := by rw [hbuf, update_self]
  have hoth : ∀ x ≠ b, k'.buf x = k.buf x := fun x hx => by rw [hbuf, update_of_ne hx]
  have halike := hsty.alike hbuf
  refine ⟨h.toShape.keep hbuf hemp hsty, fun x => ?_, fun x => ?_, fun x vp => ?_,
    fun vp a hcln => ?_⟩
  · by_cases hx : x = b
    · rw [hx, hself]
      intro hd
      obtain ⟨hold, hdone⟩ := hdel hd
      refine ⟨hdone, fun hne => ?_⟩
      obtain ⟨vp, hvp⟩ := (h.delwri b hold).2 (hsty.bcount ▸ hne)
      exact ⟨vp, hsty.of.2 hvp⟩
    · rw [hoth x hx]
      exact h.delwri x
  · by_cases hx : x = b
    · rwa [hx, hself]
    · rw [hoth x hx]
      exact h.active x
  · by_cases hx : x = b
    · rw [hx, hself]
      intro hof hdone hb a ha
      rw [hsty.byte (hsty.covers.1 ha)]
      exact h.good b vp (hsty.of.1 hof) (hvalid hdone) hb a (hsty.covers.1 ha)
    · rw [hoth x hx]
      exact h.good x vp
  · rw [hdisk]
    refine h.disk vp a fun x hof hx hdx =>
      hcln x ((halike.of x vp).2 hof) ((halike.covers x a).2 hx) ?_
    by_cases hxb : x = b
    · subst hxb
      rw [hself]
      exact hdty hdx
    · rwa [hoth x hxb]

/-- What is last written, when a buffer is. -/
def write (cur : ℕ → ℤ → UInt8) (b : Buf) : ℕ → ℤ → UInt8 :=
  match b.b_vp with
  | none => cur
  | some vp => update cur vp fun a =>
      if b.b_blkno * DEV_BSIZE ≤ a ∧ a < b.b_blkno * DEV_BSIZE + b.b_bcount then byte b a
      else cur vp a

theorem write_of_covers {b : Buf} (hvp : b.b_vp = some vp) (ha : Covers b a) :
    write cur b vp a = byte b a := by
  rw [Covers] at ha
  rw [write, hvp]
  dsimp only
  rw [update_self, if_pos ha]

theorem write_of_not {b : Buf} (h : ¬(b.b_vp = some vp ∧ Covers b a)) :
    write cur b vp a = cur vp a := by
  rw [Covers] at h
  rw [write]
  cases hvp : b.b_vp with
  | none => rfl
  | some v =>
    dsimp only
    by_cases hv : vp = v
    · subst hv
      rw [update_self, if_neg fun ha => h ⟨hvp, ha⟩]
    · rw [update_of_ne hv]

/-- A buffer becomes dirty: what it has is last written from now on. -/
theorem Coherent.write (h : Coherent k cur loose) (hof : Of (k.buf b) vp)
    (hbuf : k'.buf = update k.buf b f) (hemp : Empties k k' b f)
    (hdisk : k'.disk = k.disk) (hsty : Stays (k.buf b) f) (hdty : Dirty f)
    (hdel : f.delwri → f.done = true) (hact : f.active → f.delwri = false)
    (hsub : ∀ x ∈ loose, x ≠ b → x ∈ loose') : Coherent k' (write cur (k.buf b)) loose' := by
  have hself : k'.buf b = f := by rw [hbuf, update_self]
  have hoth : ∀ x ≠ b, k'.buf x = k.buf x := fun x hx => by rw [hbuf, update_of_ne hx]
  have halike := hsty.alike hbuf
  have hof' : ∃ vp, Of f vp := ⟨vp, hsty.of.2 hof⟩
  refine ⟨h.toShape.keep hbuf hemp hsty, fun x => ?_, fun x => ?_, fun x v => ?_,
    fun v a hcln => ?_⟩
  · by_cases hx : x = b
    · rw [hx, hself]
      exact fun hd => ⟨hdel hd, fun _ => hof'⟩
    · rw [hoth x hx]
      exact h.delwri x
  · by_cases hx : x = b
    · rw [hx, hself]
      exact fun ha => ⟨hact ha, fun _ => hof'⟩
    · rw [hoth x hx]
      exact h.active x
  · by_cases hx : x = b
    · rw [hx, hself]
      intro hfof _ _ a ha
      rw [hsty.byte (hsty.covers.1 ha)]
      exact (write_of_covers (hsty.of.1 hfof).1 (hsty.covers.1 ha)).symm
    · rw [hoth x hx]
      intro hofx hdone hnot a ha
      rw [write_of_not, h.good x v hofx hdone (fun hmem => hnot (hsub x hmem hx)) a ha]
      rintro ⟨hvp, hab⟩
      obtain rfl : v = vp := Option.some.inj (hvp.symm.trans hof.1)
      exact hx (h.apart b x v a hof hofx hab ha)
  · rw [hdisk, write_of_not, h.disk v a]
    · intro x hofx hxa hdx
      refine hcln x ((halike.of x v).2 hofx) ((halike.covers x a).2 hxa) ?_
      by_cases hxb : x = b
      · subst hxb
        rwa [hself]
      · rwa [hoth x hxb]
    · rintro ⟨hvp, hab⟩
      obtain rfl : v = vp := Option.some.inj (hvp.symm.trans hof.1)
      exact hcln b ((halike.of b v).2 hof) ((halike.covers b a).2 hab) (hself ▸ hdty)

/-- The memory of a buffer is written to that may be. -/
theorem Coherent.store (h : Coherent k cur loose) (hb : b ∈ loose) (addr : ℕ → UInt8) :
    Coherent (k.modify b fun b => { b with b_addr := addr }) cur loose := by
  have hbuf : ∀ x, ∃ addr', (k.modify b fun b => { b with b_addr := addr }).buf x =
      { k.buf x with b_addr := addr' } ∧ (x ∉ loose → addr' = (k.buf x).b_addr) := by
    intro x
    by_cases hx : x = b
    · subst hx
      exact ⟨addr, k.modify_self x _, fun hnot => absurd hb hnot⟩
    · exact ⟨(k.buf x).b_addr, k.modify_of_ne b _ hx, fun _ => rfl⟩
  choose addr' hbuf haddr using hbuf
  refine ⟨⟨fun x => ?_, fun x => ?_, fun x => ?_, fun x => ?_, fun x y => ?_⟩, fun x => ?_, fun x => ?_,
    fun x vp => ?_, fun vp a hcln => ?_⟩
  · rw [hbuf x]
    exact h.plain x
  · rw [hbuf x]
    exact h.fits x
  · rw [hbuf x]
    exact h.empty x
  · rw [hbuf x]
    exact h.range x
  · rw [hbuf x, hbuf y]
    exact h.apart x y
  · rw [hbuf x]
    exact h.delwri x
  · rw [hbuf x]
    exact h.active x
  · rw [hbuf x]
    intro hof hdone hnot a ha
    rw [byte, haddr x hnot]
    exact h.good x vp hof hdone hnot a ha
  · refine h.disk vp a fun x => ?_
    have hx := hcln x
    rw [hbuf x] at hx
    exact hx

/-- Nothing changes. -/
theorem Coherent.congr (h : Coherent k cur loose) (hbuf : k'.buf = k.buf) (hdisk : k'.disk = k.disk)
    (hemp : ∀ x ∈ k'.bfreelist .empty, x ∈ k.bfreelist .empty) : Coherent k' cur loose := by
  obtain ⟨⟨plain, fits, empty, range, apart⟩, delwri, active, good, disk⟩ := h
  have hshp : Shape k' := by
    constructor
    all_goals rw [hbuf]
    · exact plain
    · exact fits
    · exact fun b hb => empty b (hemp b hb)
    · exact range
    · exact apart
  refine ⟨hshp, ?_, ?_, ?_, ?_⟩
  all_goals rw [hbuf]
  · exact delwri
  · exact active
  · exact good
  · rw [hdisk]
    exact disk

end Uwisc.Bio
