import Uwisc.Lib.Bytes

/-!
# Socket buffers

The queue of mbufs of a socket, from `sys/sys/uipc_socket2.c` and `sys/h/socketvar.h`:
`sbappend`, `sbappendrecord`, `sbappendaddr`, `sbappendrights`, `sbcompress`, `sbdrop`,
`sbdroprecord` and `sbflush`, with `sballoc`, `sbfree` and `sbspace`.

A chain of mbufs linked by `m_next` is a list of them, and a queue of records linked by `m_act`
is a list of chains. The offset of the data of an mbuf is relative to the mbuf itself, and so are
the bytes in `dat`. It says where they are: within the mbuf, or in a cluster that lies outside
of it. The counters are unsigned shorts.
-/

namespace Uwisc.Socket

open Lib

def MSIZE : ℕ := 128
def MMINOFF : ℕ := 12
def MMAXOFF : ℕ := 124
def MLEN : ℕ := 112
def CLBYTES : ℕ := 1024

/-- The types of mbufs that the code names. -/
def MT_SONAME : ℕ := 8

/-- An mbuf (`struct mbuf`). Whether it holds a cluster goes along; a cluster does not overlap
    the mbuf, nor the other end of the address space. -/
structure Mbuf where
  m_off : ℕ
  m_len : ℕ
  m_type : ℕ
  cluster : Bool
  dat : Mem
  inside : cluster = false → MMINOFF ≤ m_off ∧ m_off + m_len ≤ MMAXOFF
  outside : cluster = true → MSIZE ≤ m_off ∧ m_off + m_len ≤ 2 ^ 32

/-- The bytes of an mbuf, from `mtod` on. -/
def Mbuf.data (m : Mbuf) : List UInt8 := bytes m.dat m.m_off m.m_len

/-- A socket buffer (`struct sockbuf`). -/
structure Sockbuf where
  sb_cc : BitVec 16
  sb_hiwat : BitVec 16
  sb_mbcnt : BitVec 16
  sb_mbmax : BitVec 16
  sb_mb : List (List Mbuf)
  sb_flags : BitVec 16

inductive Panic
  | sbappendrights
  | sbdrop
  | sbflush
  | sbflush2
  deriving DecidableEq

/-- What a socket buffer is charged for an mbuf. -/
def Mbuf.charge (m : Mbuf) : ℕ := MSIZE + if m.m_off > MMAXOFF then CLBYTES else 0

def sballoc (sb : Sockbuf) (m : Mbuf) : Sockbuf :=
  { sb with sb_cc := sb.sb_cc + m.m_len, sb_mbcnt := sb.sb_mbcnt + m.charge }

def sbfree (sb : Sockbuf) (m : Mbuf) : Sockbuf :=
  { sb with sb_cc := sb.sb_cc - m.m_len, sb_mbcnt := sb.sb_mbcnt - m.charge }

def sbspace (sb : Sockbuf) : ℤ :=
  min (sb.sb_hiwat.toNat - sb.sb_cc.toNat) (sb.sb_mbmax.toNat - sb.sb_mbcnt.toNat)

/-- The bytes of `m` fit after those of `n`, within `n` itself. -/
def Mergeable (n m : Mbuf) : Prop :=
  n.m_off ≤ MMAXOFF ∧ m.m_off ≤ MMAXOFF ∧ n.m_off + n.m_len + m.m_len ≤ MMAXOFF ∧
    n.m_type = m.m_type

instance (n m : Mbuf) : Decidable (Mergeable n m) := inferInstanceAs (Decidable (_ ∧ _ ∧ _ ∧ _))

theorem Mbuf.cluster_iff (m : Mbuf) : m.m_off > MMAXOFF ↔ m.cluster = true := by
  have hin := m.inside
  have hout := m.outside
  cases hc : m.cluster <;> simp only [hc, MSIZE, MMINOFF, MMAXOFF] at hin hout ⊢ <;> grind

/-- Copies the bytes of `m` after those of `n`. -/
def Mbuf.merge (n m : Mbuf) (h : Mergeable n m) : Mbuf where
  m_off := n.m_off
  m_len := n.m_len + m.m_len
  m_type := n.m_type
  cluster := n.cluster
  dat := store n.dat (n.m_off + n.m_len) m.data
  inside hc := ⟨(n.inside hc).1, by have := h.2.2.1; omega⟩
  outside hc := absurd (n.cluster_iff.2 hc) (not_lt.2 h.1)

/-- Puts a chain of mbufs after the record `r`, whose last mbuf is `n`; there is none if `r` is
    empty. -/
def sbcompress (sb : Sockbuf) : List Mbuf → List Mbuf → Sockbuf × List Mbuf
  | [], r => (sb, r)
  | m :: ms, r =>
    if m.m_len = 0 then sbcompress sb ms r
    else match r.getLast? with
      | some n =>
        if h : Mergeable n m then
          sbcompress { sb with sb_cc := sb.sb_cc + m.m_len } ms (r.dropLast ++ [n.merge m h])
        else sbcompress (sballoc sb m) ms (r ++ [m])
      | none => sbcompress (sballoc sb m) ms (r ++ [m])

/-- Appends a chain to the last record. -/
def sbappend (sb : Sockbuf) (m : List Mbuf) : Sockbuf :=
  if m = [] then sb
  else
    let (sb', r) := sbcompress sb m (sb.sb_mb.getLast?.getD [])
    { sb' with sb_mb := sb.sb_mb.dropLast ++ if r = [] then [] else [r] }

/-- Appends a chain as a record. -/
def sbappendrecord (sb : Sockbuf) : List Mbuf → Sockbuf
  | [] => sb
  | m0 :: m =>
    let (sb', r) := sbcompress (sballoc sb m0) m [m0]
    { sb' with sb_mb := sb.sb_mb ++ [r] }

/-- A new mbuf with some bytes. -/
def mget (m_type : ℕ) (l : List UInt8) (h : l.length ≤ MLEN) : Mbuf where
  m_off := MMINOFF
  m_len := l.length
  m_type := m_type
  cluster := false
  dat := store (fun _ => 0) MMINOFF l
  inside _ := ⟨le_rfl, by simp only [MMINOFF, MMAXOFF, MLEN] at h ⊢; omega⟩
  outside := nofun

/-- `m_copy(m, 0, m->m_len)`, for bytes that are many and in a cluster: the copy shares it. It is
    at `off` from the new mbuf. -/
def mcldup (m : Mbuf) (off : ℕ) (h : MSIZE ≤ off ∧ off + m.m_len ≤ 2 ^ 32) : Mbuf where
  m_off := off
  m_len := m.m_len
  m_type := m.m_type
  cluster := true
  dat := store (fun _ => 0) off m.data
  inside := nofun
  outside _ := h

/-- What is not shared fits in an mbuf. -/
theorem Mbuf.m_len_le (m : Mbuf) (h : ¬(m.m_off > MMAXOFF ∧ m.m_len > MLEN)) : m.m_len ≤ MLEN := by
  have hiff := m.cluster_iff
  have hin := m.inside
  cases hc : m.cluster <;> simp only [hc, MMINOFF, MMAXOFF, MLEN] at h hiff hin ⊢ <;> grind

/-- The first mbuf of a chain copied (`m_copy(m, 0, m->m_len)`), to a new mbuf that is `off` away
    from the cluster; there may be none (`none`). -/
def mCopy (m : Mbuf) : Option ℕ → Option Mbuf
  | none => none
  | some off =>
    if m.m_len = 0 then none
    else if hcl : m.m_off > MMAXOFF ∧ m.m_len > MLEN then
      if h : MSIZE ≤ off ∧ off + m.m_len ≤ 2 ^ 32 then some (mcldup m off h) else none
    else some (mget m.m_type m.data (by rw [Mbuf.data, length_bytes]; exact m.m_len_le hcl))

/-- The bytes of a chain. -/
def chainLen (m : List Mbuf) : ℕ := (m.map Mbuf.m_len).sum

/-- Appends an address, access rights and data as a record. The address is in a new mbuf if there
    is one (`get`), the rights are copied. -/
def sbappendaddr (sb : Sockbuf) (asa : Vector UInt8 16) (m0 rights0 : List Mbuf) (get : Bool)
    (off : Option ℕ) : ℤ × Sockbuf :=
  let m : Mbuf := mget MT_SONAME asa.toList (by simp [MLEN])
  let put (sb : Sockbuf) (m : List Mbuf) : ℤ × Sockbuf :=
    let (sb', r) := sbcompress sb m0 m
    (1, { sb' with sb_mb := sb.sb_mb ++ [r] })
  if (16 + chainLen m0 + (rights0.head?.elim 0 Mbuf.m_len) : ℤ) > sbspace sb then (0, sb)
  else if get = false then (0, sb)
  else match rights0 with
    | [] => put (sballoc sb m) [m]
    | rights :: _ =>
      if rights.m_len ≠ 0 then
        match mCopy rights off with
        | none => (0, sb)
        | some n => put (sballoc (sballoc sb n) m) [m, n]
      else put (sballoc sb m) [m]

/-- Appends access rights and data as a record. -/
def sbappendrights (sb : Sockbuf) (m0 rights : List Mbuf) (off : Option ℕ) :
    Except Panic (ℤ × Sockbuf) :=
  match rights with
  | [] => .error .sbappendrights
  | rights :: _ =>
    if (chainLen m0 + rights.m_len : ℤ) > sbspace sb then .ok (0, sb)
    else match mCopy rights off with
      | none => .ok (0, sb)
      | some m =>
        let (sb', r) := sbcompress (sballoc sb m) m0 [m]
        .ok (1, { sb' with sb_mb := sb.sb_mb ++ [r] })

/-- Drops bytes from the front of an mbuf. -/
def Mbuf.trim (m : Mbuf) (len : ℕ) (h : len < m.m_len) : Mbuf where
  m_off := m.m_off + len
  m_len := m.m_len - len
  m_type := m.m_type
  cluster := m.cluster
  dat := m.dat
  inside hc := by have := m.inside hc; omega
  outside hc := by have := m.outside hc; omega

/-- The loop of `sbdrop`, with what is left of a record and the records after it. -/
def sbdropLoop (sb : Sockbuf) (m : List Mbuf) (next : List (List Mbuf)) (len : ℕ) :
    Except Panic (Sockbuf × List Mbuf × List (List Mbuf)) :=
  if len = 0 then .ok (sb, m, next)
  else match m, next with
    | [], [] => .error .sbdrop
    | [], m :: next => sbdropLoop sb m next len
    | m :: mn, next =>
      if h : m.m_len > len then .ok ({ sb with sb_cc := sb.sb_cc - len }, m.trim len h :: mn, next)
      else sbdropLoop (sbfree sb m) mn next (len - m.m_len)
  termination_by (next.length, m.length)

/-- Frees the mbufs at the front that are empty. -/
def sbdropEmpty (sb : Sockbuf) : List Mbuf → Sockbuf × List Mbuf
  | [] => (sb, [])
  | m :: mn => if m.m_len = 0 then sbdropEmpty (sbfree sb m) mn else (sb, m :: mn)

/-- Drops bytes from the front. -/
def sbdrop (sb : Sockbuf) (len : ℤ) : Except Panic Sockbuf := do
  let (sb, m, next) ← sbdropLoop sb (sb.sb_mb.headD []) sb.sb_mb.tail len.toNat
  let (sb, m) := sbdropEmpty sb m
  return { sb with sb_mb := if m = [] then next else m :: next }

/-- Drops a record from the front. -/
def sbdroprecord (sb : Sockbuf) : Sockbuf :=
  match sb.sb_mb with
  | [] => sb
  | m :: next => { m.foldl sbfree sb with sb_mb := next }

/-- The loop of `sbflush`, at most `fuel` times. -/
def sbflushLoop : ℕ → Sockbuf → Option (Except Panic Sockbuf)
  | fuel, sb =>
    if sb.sb_mbcnt = 0 then some (.ok sb)
    else match fuel with
      | 0 => none
      | fuel + 1 =>
        match sbdrop sb sb.sb_cc.toNat with
        | .error e => some (.error e)
        | .ok sb => sbflushLoop fuel sb

/-- Frees all mbufs. -/
def sbflush (fuel : ℕ) (sb : Sockbuf) : Option (Except Panic Sockbuf) :=
  if sb.sb_flags &&& 1 ≠ 0 then some (.error .sbflush)
  else (sbflushLoop fuel sb).map fun r => r.bind fun sb =>
    if sb.sb_cc ≠ 0 ∨ sb.sb_mbcnt ≠ 0 ∨ sb.sb_mb ≠ [] then .error .sbflush2 else .ok sb

end Uwisc.Socket
