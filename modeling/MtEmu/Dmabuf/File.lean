import MtEmu.Bare.Info
import MtEmu.Lib.Bytes

/-!
# MtEmu.Dmabuf.File

The DMA buffer device as a file: `emu_dmabuf_read` and `emu_dmabuf_write`
(`mt-emu-dmabuf.c`).

Position, count and size meet in unsigned 64-bit arithmetic, so that a negative position
is one behind the end.  With the counts the VFS passes on no sum wraps, and both calls
accept what lies between the position and the end (`clip_some`); what is written there
is read there (`dmabuf_rw_sound`).
-/

namespace MtEmu

open Bytes

/-- `MAX_RW_COUNT`, the largest count that the VFS passes on. -/
def maxRwCount : Nat := 0x7ffff000

/-- `struct emu_dmabuf`: `MTDMA_BUF_SIZE`, of either build, and the bytes at `mtdma_vaddr`. -/
structure EmuDmabuf where
  mtdmaSize : U64
  mem : Mem
  probed : ∃ resv, mtdmaSize.toNat = mtdmaBufSize resv

/-- A count as the driver gets it. -/
abbrev RwCount := { count : U64 // count.toNat ≤ maxRwCount }

/-- The data of a write as the driver gets them. -/
abbrev RwData := { data : List (BitVec 8) // data.length ≤ maxRwCount }

/-- The count of some data. -/
def RwData.count (data : RwData) : RwCount :=
  ⟨BitVec.ofNat 64 data.1.length, (BitVec.toNat_ofNat ..).trans_le
    ((Nat.mod_le _ _).trans data.2)⟩

/-- What a call leaves: its value, the bytes of the buffer that its copy goes over, the
buffer, what the user got, and `*ppos`. -/
structure FileCall where
  ret : Int
  touched : Option Extent
  dev : EmuDmabuf
  toUser : List (BitVec 8)
  ppos : U64

namespace EmuDmabuf

/-- The tests that both calls make: nothing at the end, else `count` cut to what is left.
`*ppos` is converted to unsigned. -/
def clip (d : EmuDmabuf) (count ppos : U64) : Option U64 :=
  if d.mtdmaSize ≤ ppos then none
  else some (if d.mtdmaSize < ppos + count then d.mtdmaSize - ppos else count)

/-- A call that copies nothing. -/
def atEnd (d : EmuDmabuf) (ppos : U64) : FileCall := ⟨0, none, d, [], ppos⟩

/-- `emu_dmabuf_read`; `copy_to_user` does not copy the last `left` bytes. -/
def emuDmabufRead (d : EmuDmabuf) (count : RwCount) (ppos : U64) (left : Nat) : FileCall :=
  match d.clip count.1 ppos with
  | none => d.atEnd ppos
  | some count =>
      ⟨if left ≠ 0 then -14 else count.toNat, some ⟨ppos.toNat, count.toNat⟩, d,
        slice d.mem ppos.toNat (count.toNat - left), ppos⟩

/-- What `copy_from_user` puts into the buffer: the data, and zeroes for the last `left`
bytes, which it could not read. -/
def fromUser (data : RwData) (count left : Nat) : Mem :=
  fun i => if i < count - left then data.1.getD i 0 else 0

/-- `emu_dmabuf_write`. -/
def emuDmabufWrite (d : EmuDmabuf) (data : RwData) (ppos : U64) (left : Nat) : FileCall :=
  match d.clip data.count.1 ppos with
  | none => d.atEnd ppos
  | some count =>
      ⟨if left ≠ 0 then -14 else count.toNat, some ⟨ppos.toNat, count.toNat⟩,
        { d with mem := copy (fromUser data count.toNat left) 0 d.mem ppos.toNat count.toNat },
        [], ppos⟩

/-! ## what is accepted -/

variable {d : EmuDmabuf} {ppos : U64}

/-- A buffer has at most 32 GiB. -/
theorem size_le (d : EmuDmabuf) : d.mtdmaSize.toNat ≤ 0x800000000 := by
  obtain ⟨resv, hsize⟩ := d.probed
  rw [hsize]
  cases resv <;> decide

theorem clip_none (count : U64) (h : d.mtdmaSize.toNat ≤ ppos.toNat) : d.clip count ppos = none :=
  if_pos h

/-- Before the end, a call accepts what is left of the buffer, or all. -/
theorem clip_some (count : RwCount) (h : ppos.toNat < d.mtdmaSize.toNat) :
    ∃ n : U64, d.clip count.1 ppos = some n ∧
      n.toNat = min count.1.toNat (d.mtdmaSize.toNat - ppos.toNat) := by
  have hsize := d.size_le
  have hcount : count.1.toNat ≤ 0x7ffff000 := count.2
  have hsum : (ppos + count.1).toNat = ppos.toNat + count.1.toNat := by
    rw [BitVec.toNat_add]
    omega
  refine ⟨_, if_neg (Nat.not_le_of_lt h), ?_⟩
  by_cases hclip : d.mtdmaSize < ppos + count.1
  · have hlt : d.mtdmaSize.toNat < ppos.toNat + count.1.toNat := hsum ▸ hclip
    rw [if_pos hclip, BitVec.toNat_sub_of_le (Nat.le_of_lt h)]
    omega
  · have hle : ppos.toNat + count.1.toNat ≤ d.mtdmaSize.toNat :=
      hsum ▸ Nat.le_of_not_lt hclip
    rw [if_neg hclip]
    omega

/-- The bytes of `count` that lie before the end. -/
def accepted (d : EmuDmabuf) (ppos : U64) (count : Nat) : Nat :=
  min count (d.mtdmaSize.toNat - ppos.toNat)

theorem count_toNat (data : RwData) : data.count.1.toNat = data.1.length := by
  have hlen : data.1.length ≤ 0x7ffff000 := data.2
  rw [RwData.count, BitVec.toNat_ofNat, Nat.mod_eq_of_lt (by omega)]

/-! ## the two calls -/

/-- A read at the end. -/
theorem read_end (count : RwCount) (left : Nat) (h : d.mtdmaSize.toNat ≤ ppos.toNat) :
    d.emuDmabufRead count ppos left = d.atEnd ppos := by
  rw [emuDmabufRead, clip_none _ h]

/-- A read before it. -/
theorem read_before (count : RwCount) (left : Nat) (h : ppos.toNat < d.mtdmaSize.toNat) :
    d.emuDmabufRead count ppos left =
      ⟨if left ≠ 0 then -14 else d.accepted ppos count.1.toNat,
        some ⟨ppos.toNat, d.accepted ppos count.1.toNat⟩, d,
        slice d.mem ppos.toNat (d.accepted ppos count.1.toNat - left), ppos⟩ := by
  obtain ⟨n, hclip, hn⟩ := clip_some count h
  rw [emuDmabufRead, hclip, accepted, ← hn]

/-- A write at the end. -/
theorem write_end (data : RwData) (left : Nat) (h : d.mtdmaSize.toNat ≤ ppos.toNat) :
    d.emuDmabufWrite data ppos left = d.atEnd ppos := by
  rw [emuDmabufWrite, clip_none _ h]

/-- A write before it. -/
theorem write_before (data : RwData) (left : Nat) (h : ppos.toNat < d.mtdmaSize.toNat) :
    d.emuDmabufWrite data ppos left =
      ⟨if left ≠ 0 then -14 else d.accepted ppos data.1.length,
        some ⟨ppos.toNat, d.accepted ppos data.1.length⟩,
        { d with
          mem := copy (fromUser data (d.accepted ppos data.1.length) left) 0 d.mem ppos.toNat
            (d.accepted ppos data.1.length) },
        [], ppos⟩ := by
  obtain ⟨n, hclip, hn⟩ := clip_some data.count h
  rw [emuDmabufWrite, hclip, accepted, ← count_toNat, ← hn]

/-- A call copies inside the buffer only, and leaves the bytes that it does not copy over. -/
structure Confined (d : EmuDmabuf) (c : FileCall) : Prop where
  within : ∀ x, c.touched = some x → x.Within 0 d.mtdmaSize.toNat
  size : c.dev.mtdmaSize = d.mtdmaSize
  frame : ∀ b, (∀ x, c.touched = some x → ¬(x.off ≤ b ∧ b < x.off + x.len)) →
    c.dev.mem b = d.mem b

theorem confined_atEnd (d : EmuDmabuf) (ppos : U64) : d.Confined (d.atEnd ppos) :=
  ⟨nofun, rfl, fun _ _ => rfl⟩

theorem within_accepted (count : Nat) (h : ppos.toNat < d.mtdmaSize.toNat) :
    Extent.Within ⟨ppos.toNat, d.accepted ppos count⟩ 0 d.mtdmaSize.toNat := by
  refine ⟨Nat.zero_le _, ?_⟩
  simp only [accepted]
  omega

theorem confined_read (d : EmuDmabuf) (count : RwCount) (ppos : U64) (left : Nat) :
    d.Confined (d.emuDmabufRead count ppos left) := by
  by_cases h : ppos.toNat < d.mtdmaSize.toNat
  · rw [read_before count left h]
    exact ⟨fun x hx => Option.some.inj hx ▸ within_accepted _ h, rfl, fun _ _ => rfl⟩
  · rw [read_end count left (Nat.le_of_not_lt h)]
    exact d.confined_atEnd ppos

theorem confined_write (d : EmuDmabuf) (data : RwData) (ppos : U64) (left : Nat) :
    d.Confined (d.emuDmabufWrite data ppos left) := by
  by_cases h : ppos.toNat < d.mtdmaSize.toNat
  · rw [write_before data left h]
    exact ⟨fun x hx => Option.some.inj hx ▸ within_accepted _ h, rfl,
      fun b hb => if_neg (hb _ rfl)⟩
  · rw [write_end data left (Nat.le_of_not_lt h)]
    exact d.confined_atEnd ppos

/-- The bytes of a write that was copied whole. -/
theorem slice_fromUser (data : RwData) {n : Nat} (hn : n ≤ data.1.length) :
    slice (fromUser data n 0) 0 n = data.1.take n := by
  apply List.ext_getElem
  · simp [slice, hn]
  · intro i hi _
    have hlt : i < n := by simpa [slice] using hi
    have hlen : i < data.1.length := hlt.trans_le hn
    simp [slice, fromUser, hlt, hlen]

/-- **Read and write**: at every position, also a negative one, and for every count, the
copies stay inside the buffer whether they succeed or not; and a read at the position of a
write gives the bytes that the write accepted, all others being as they were. -/
theorem dmabuf_rw_sound (d : EmuDmabuf) (ppos : U64) :
    (∀ count left, d.Confined (d.emuDmabufRead count ppos left)) ∧
    (∀ data left, d.Confined (d.emuDmabufWrite data ppos left)) ∧
    ∀ data, let w := d.emuDmabufWrite data ppos 0
      let r := w.dev.emuDmabufRead data.count ppos 0
      w.ret = d.accepted ppos data.1.length ∧ r.ret = w.ret ∧
        r.toUser = data.1.take w.ret.toNat ∧
        ∀ b, ¬(ppos.toNat ≤ b ∧ b < ppos.toNat + w.ret.toNat) → r.dev.mem b = d.mem b := by
  refine ⟨fun count left => d.confined_read count ppos left,
    fun data left => d.confined_write data ppos left, ?_⟩
  intro data w r
  have hsize : w.dev.mtdmaSize = d.mtdmaSize := (d.confined_write data ppos 0).size
  have haccept : ∀ n, w.dev.accepted ppos n = d.accepted ppos n := fun n => by
    simp only [accepted, hsize]
  by_cases h : ppos.toNat < d.mtdmaSize.toNat
  · have hw : w = _ := write_before data 0 h
    have hr : r = _ := read_before data.count 0 (hsize.symm ▸ h)
    have hle : d.accepted ppos data.1.length ≤ data.1.length := Nat.min_le_left _ _
    have hret : w.ret = d.accepted ppos data.1.length := by rw [hw]; rfl
    have hmem : w.dev.mem = copy (fromUser data (d.accepted ppos data.1.length) 0) 0 d.mem
        ppos.toNat (d.accepted ppos data.1.length) := by rw [hw]
    rw [count_toNat, haccept, hmem] at hr
    rw [hr, hret, Int.toNat_natCast]
    refine ⟨rfl, rfl, ?_, fun b hb => ?_⟩
    · exact (slice_copy _ 0 _ _ _).trans (slice_fromUser data hle)
    · rw [hmem]
      exact if_neg hb
  · have hend := Nat.le_of_not_lt h
    have hw : w = _ := write_end data 0 hend
    have hr : r = _ := read_end data.count 0 (hsize.symm ▸ hend)
    have hnone : d.accepted ppos data.1.length = 0 := by
      simp only [accepted]
      omega
    rw [hr, hnone, hw]
    exact ⟨rfl, rfl, by simp [atEnd], fun _ _ => rfl⟩

end EmuDmabuf

end MtEmu
