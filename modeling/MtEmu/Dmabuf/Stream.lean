import MtEmu.Dmabuf.File

/-!
# MtEmu.Dmabuf.Stream

Reading and writing the DMA buffer device through its file position
(`mt-emu-dmabuf.c`).

The VFS hands a call the address of a copy of the position and takes the copy back when
the call did not fail.  Neither `emu_dmabuf_read` nor `emu_dmabuf_write` sets `*ppos`, so
that the position stays: a reader sees the same bytes for ever and a second write goes
over the first one (`streaming_iff`).
-/

namespace MtEmu

open Bytes

/-- An open file: the device and `f_pos`. -/
structure DmaFile where
  dev : EmuDmabuf
  fPos : U64

/-- A count of at least one byte. -/
abbrev PosCount := { count : RwCount // 0 < count.1.toNat }

/-- The length of some data. -/
abbrev RwLen := { n : Nat // n ≤ maxRwCount }

/-- Data of this length with the same byte everywhere. -/
def RwLen.filled (n : RwLen) (byte : BitVec 8) : RwData :=
  ⟨List.replicate n.1 byte, by rw [List.length_replicate]; exact n.2⟩

def RwData.len (data : RwData) : RwLen := ⟨data.1.length, data.2⟩

namespace DmaFile

/-- The file after a call: the device as the call leaves it, and the position that the VFS
takes back from it if it did not fail. -/
def resume (f : DmaFile) (c : FileCall) : DmaFile :=
  ⟨c.dev, if 0 ≤ c.ret then c.ppos else f.fPos⟩

/-- `read`, whose copy succeeds. -/
def read (f : DmaFile) (count : RwCount) : FileCall := f.dev.emuDmabufRead count f.fPos 0

/-- `write`, whose copy succeeds. -/
def write (f : DmaFile) (data : RwData) : FileCall := f.dev.emuDmabufWrite data f.fPos 0

/-- The file before read `n`. -/
def reads (f : DmaFile) (sizes : Nat → PosCount) : Nat → DmaFile
  | 0 => f
  | n + 1 => (f.reads sizes n).resume ((f.reads sizes n).read (sizes n).1)

/-- Read `n`. -/
def nthRead (f : DmaFile) (sizes : Nat → PosCount) (n : Nat) : FileCall :=
  (f.reads sizes n).read (sizes n).1

/-- The file after some writes. -/
def writes (f : DmaFile) (datas : List RwData) : DmaFile :=
  datas.foldl (fun f data => f.resume (f.write data)) f

/-- The bytes from the position to the end. -/
def rest (f : DmaFile) : Nat := f.dev.mtdmaSize.toNat - f.fPos.toNat

/-- Reading until a read returns 0 ends, with the buffer's contents from the position on.  This
is what a reader such as `cat` relies on, whatever sizes it asks for. -/
def Streams (f : DmaFile) (sizes : Nat → PosCount) : Prop :=
  ∃ n, (∀ k < n, (f.nthRead sizes k).ret ≠ 0) ∧ (f.nthRead sizes n).ret = 0 ∧
    ((List.range n).flatMap fun k => (f.nthRead sizes k).toUser) =
      slice f.dev.mem f.fPos.toNat f.rest

/-- The writes store their data one after the other, up to the end: afterwards the buffer has,
from the position on, what the data are when they are joined. -/
def Stores (f : DmaFile) (datas : List RwData) : Prop :=
  let data := datas.flatMap Subtype.val
  (f.writes datas).dev.mem =
    copy (fun i => data.getD i 0) 0 f.dev.mem f.fPos.toNat (min data.length f.rest)

/-- Writes of these lengths store their data, whatever they and the buffer are. -/
def AlwaysStores (f : DmaFile) (lens : List RwLen) : Prop :=
  ∀ mem datas, datas.map RwData.len = lens → Stores ⟨{ f.dev with mem := mem }, f.fPos⟩ datas

/-! ## one call -/

variable {f : DmaFile}

/-- A read leaves the file as it was. -/
theorem resume_read (f : DmaFile) (count : RwCount) : f.resume (f.read count) = f := by
  unfold resume read
  by_cases h : f.fPos.toNat < f.dev.mtdmaSize.toNat
  · simp [EmuDmabuf.read_before count 0 h]
  · simp [EmuDmabuf.read_end count 0 (Nat.le_of_not_lt h), EmuDmabuf.atEnd]

/-- A write leaves the position. -/
theorem fPos_resume_write (f : DmaFile) (data : RwData) :
    (f.resume (f.write data)).fPos = f.fPos := by
  unfold resume write
  by_cases h : f.fPos.toNat < f.dev.mtdmaSize.toNat
  · simp [EmuDmabuf.write_before data 0 h]
  · simp [EmuDmabuf.write_end data 0 (Nat.le_of_not_lt h), EmuDmabuf.atEnd]

/-- Before the end a read of a byte or more returns something. -/
theorem ret_read_ne_zero (h : f.fPos.toNat < f.dev.mtdmaSize.toNat) (count : PosCount) :
    (f.read count.1).ret ≠ 0 := by
  have hpos := count.2
  rw [read, EmuDmabuf.read_before count.1 0 h]
  simp only [EmuDmabuf.accepted, ne_eq, not_true_eq_false, if_false]
  omega

/-! ## reading -/

/-- No read gets any further. -/
theorem reads_eq (f : DmaFile) (sizes : Nat → PosCount) (n : Nat) : f.reads sizes n = f := by
  induction n with
  | zero => rfl
  | succ n ih => rw [reads, ih, resume_read]

/-- Reading streams from the end on only. -/
theorem streams_iff (sizes : Nat → PosCount) :
    f.Streams sizes ↔ f.dev.mtdmaSize.toNat ≤ f.fPos.toNat := by
  constructor
  · rintro ⟨n, -, hzero, -⟩
    by_contra hlt
    rw [nthRead, reads_eq] at hzero
    exact ret_read_ne_zero (Nat.lt_of_not_le hlt) (sizes n) hzero
  · intro hend
    have hrest : f.rest = 0 := by
      simp only [rest]
      omega
    refine ⟨0, nofun, ?_, by simp [hrest, slice]⟩
    rw [nthRead, reads_eq, read, EmuDmabuf.read_end _ 0 hend]
    rfl

/-! ## writing -/

/-- What a write leaves in memory. -/
def store (pos rest : Nat) (mem : Mem) (data : RwData) : Mem :=
  copy (fun i => data.1.getD i 0) 0 mem pos (min data.1.length rest)

theorem mem_resume_write (f : DmaFile) (data : RwData) :
    (f.resume (f.write data)).dev.mem = store f.fPos.toNat f.rest f.dev.mem data ∧
      (f.resume (f.write data)).rest = f.rest := by
  have hsize : (f.write data).dev.mtdmaSize = f.dev.mtdmaSize :=
    (f.dev.confined_write data f.fPos 0).size
  have hrest : (f.resume (f.write data)).rest = f.rest := by
    rw [rest, fPos_resume_write]
    exact congrArg (fun size : U64 => size.toNat - f.fPos.toNat) hsize
  refine ⟨?_, hrest⟩
  by_cases h : f.fPos.toNat < f.dev.mtdmaSize.toNat
  · simp only [resume, write, EmuDmabuf.write_before data 0 h, EmuDmabuf.accepted, store, rest]
    funext b
    simp only [copy, EmuDmabuf.fromUser, Nat.sub_zero, Nat.zero_add]
    split
    · next hb => rw [if_pos (by omega)]
    · rfl
  · have hend := Nat.le_of_not_lt h
    have hnone : f.rest = 0 := by
      simp only [rest]
      omega
    simp only [resume, write, EmuDmabuf.write_end data 0 hend, EmuDmabuf.atEnd, store, hnone,
      Nat.min_zero, copy_zero]

/-- All writes go to the same place. -/
theorem mem_writes (f : DmaFile) (datas : List RwData) :
    (f.writes datas).dev.mem = datas.foldl (store f.fPos.toNat f.rest) f.dev.mem := by
  induction datas generalizing f with
  | nil => rfl
  | cons data datas ih =>
      have hnext := ih (f.resume (f.write data))
      rw [fPos_resume_write, (mem_resume_write f data).1, (mem_resume_write f data).2] at hnext
      exact hnext

theorem store_nil {data : RwData} (h : data.len.1 = 0) (pos rest : Nat) (mem : Mem) :
    store pos rest mem data = mem := by
  rw [store, show data.1.length = 0 from h, Nat.zero_min, copy_zero]

/-- Writes without data. -/
theorem foldl_store_nil {datas : List RwData} (h : ∀ data ∈ datas, data.len.1 = 0)
    (pos rest : Nat) (mem : Mem) :
    datas.foldl (store pos rest) mem = mem ∧ datas.flatMap Subtype.val = [] := by
  induction datas generalizing mem with
  | nil => exact ⟨rfl, rfl⟩
  | cons data datas ih =>
      have hnil := h data List.mem_cons_self
      obtain ⟨hmem, hflat⟩ := ih (fun d hd => h d (List.mem_cons_of_mem data hd)) mem
      rw [List.foldl_cons, store_nil hnil, hmem, List.flatMap_cons, hflat,
        List.length_eq_zero_iff.mp hnil]
      exact ⟨rfl, rfl⟩

/-- One write with data stores what there is. -/
theorem foldl_store_one {datas : List RwData} (pos rest : Nat) (mem : Mem)
    (h : (datas.map RwData.len).countP (fun n => 0 < n.1) ≤ 1) :
    let data := datas.flatMap Subtype.val
    datas.foldl (store pos rest) mem =
      copy (fun i => data.getD i 0) 0 mem pos (min data.length rest) := by
  induction datas with
  | nil => simp
  | cons data datas ih =>
      rw [List.map_cons, List.countP_cons] at h
      by_cases hnil : data.len.1 = 0
      · have hrest := ih (by omega)
        have hempty : data.1 = [] := List.length_eq_zero_iff.mp hnil
        rw [List.foldl_cons, store_nil hnil, List.flatMap_cons, hempty]
        exact hrest
      · rw [if_pos (by simpa using Nat.pos_of_ne_zero hnil)] at h
        have hnone : ∀ d ∈ datas, d.len.1 = 0 := by
          intro d hd
          have hzero : (datas.map RwData.len).countP (fun n => 0 < n.1) = 0 := by omega
          have := List.countP_eq_zero.mp hzero d.len (List.mem_map_of_mem hd)
          simpa using this
        obtain ⟨hmem, hflat⟩ := foldl_store_nil hnone pos rest (store pos rest mem data)
        rw [List.foldl_cons, hmem, List.flatMap_cons, hflat, List.append_nil]
        rfl

/-- Data of one byte, joined. -/
theorem flatMap_filled (lens : List RwLen) (byte : BitVec 8) :
    (lens.map (·.filled byte)).flatMap Subtype.val =
      List.replicate (lens.map Subtype.val).sum byte := by
  induction lens with
  | nil => rfl
  | cons n lens ih =>
      rw [List.map_cons, List.flatMap_cons, ih, List.map_cons, List.sum_cons, List.replicate_add]
      rfl

theorem countP_le_sum (lens : List RwLen) :
    lens.countP (fun n => 0 < n.1) ≤ (lens.map Subtype.val).sum := by
  induction lens with
  | nil => exact Nat.le_refl 0
  | cons n lens ih =>
      rw [List.countP_cons, List.map_cons, List.sum_cons]
      split
      · next hn =>
          have : 0 < n.1 := by simpa using hn
          omega
      · omega

/-- Of two writes with data the second one can be seen where the first one should be. -/
theorem exists_overwritten {lens : List RwLen} (pos : Nat) {rest : Nat} (hrest : 0 < rest)
    (mem : Mem) (h : 2 ≤ lens.countP fun n => 0 < n.1) :
    ∃ datas : List RwData, datas.map RwData.len = lens ∧
      datas.foldl (store pos rest) mem pos = 1 ∧
      ∃ bytes, datas.flatMap Subtype.val = 0 :: bytes := by
  induction lens using List.reverseRecOn with
  | nil => contradiction
  | append_singleton lens n ih =>
      rw [List.countP_append] at h
      have hlen : ∀ (n : RwLen) byte, (n.filled byte).len = n := fun n byte =>
        Subtype.ext List.length_replicate
      by_cases hn : n.1 = 0
      · rw [List.countP_singleton, if_neg (by simpa using hn)] at h
        obtain ⟨datas, hlens, hmem, bytes, hbytes⟩ := ih (by omega)
        refine ⟨datas ++ [n.filled 0], by simp [hlens, hlen], ?_, bytes, ?_⟩
        · rw [List.foldl_append, List.foldl_cons, List.foldl_nil,
            store_nil (by rw [hlen]; exact hn), hmem]
        · simp [hbytes, RwLen.filled, hn]
      · have hone : 1 ≤ lens.countP fun n => 0 < n.1 := by
          have hle : ([n].countP fun n : RwLen => 0 < n.1) ≤ 1 := List.countP_le_length
          omega
        refine ⟨lens.map (·.filled 0) ++ [n.filled 1], ?_, ?_, ?_⟩
        · simp [Function.comp_def, hlen]
        · rw [List.foldl_append, List.foldl_cons, List.foldl_nil, store, copy, if_pos]
          · simp [RwLen.filled, Nat.pos_of_ne_zero hn]
          · have : (n.filled 1).1.length = n.1 := List.length_replicate
            omega
        · -- the zeroes of the writes before come first
          have hsum := countP_le_sum lens
          obtain ⟨k, hk⟩ := Nat.exists_eq_succ_of_ne_zero (n := (lens.map Subtype.val).sum)
            (by omega)
          rw [List.flatMap_append, flatMap_filled, hk, List.replicate_succ, List.cons_append]
          exact ⟨_, rfl⟩

/-- **Streaming**: reading until the end is reached ends, with the rest of the buffer,
exactly when there is no rest, whatever the sizes; and writes store their data one after the
other, whatever they are, exactly when there is no rest or at most one of them has data. -/
theorem streaming_iff (f : DmaFile) :
    (∀ sizes, f.Streams sizes ↔ f.dev.mtdmaSize.toNat ≤ f.fPos.toNat) ∧
    ∀ lens, f.AlwaysStores lens ↔
      f.dev.mtdmaSize.toNat ≤ f.fPos.toNat ∨ lens.countP (fun n => 0 < n.1) ≤ 1 := by
  refine ⟨fun sizes => streams_iff sizes, fun lens => ⟨fun h => ?_, fun h mem datas hlens => ?_⟩⟩
  · by_contra hnot
    obtain ⟨hlt, htwo⟩ := not_or.mp hnot
    have hrest : 0 < f.rest := by
      simp only [rest]
      omega
    obtain ⟨datas, hlens, hone, bytes, hzero⟩ :=
      exists_overwritten f.fPos.toNat hrest (fun _ => 0) (Nat.lt_of_not_le htwo)
    have hstores := congrFun (h (fun _ => 0) datas hlens) f.fPos.toNat
    rw [mem_writes, hzero] at hstores
    have hfirst : (0 : BitVec 8) = 1 := by
      refine (Eq.trans ?_ hstores.symm).trans hone
      have hpos : 0 < min (0 :: bytes).length (rest ⟨{ f.dev with mem := fun _ => 0 }, f.fPos⟩) :=
        Nat.lt_min.mpr ⟨Nat.succ_pos _, hrest⟩
      rw [copy, if_pos ⟨Nat.le_refl _, Nat.lt_add_of_pos_right hpos⟩]
      simp
    contradiction
  · rw [Stores, mem_writes]
    rcases h with hend | hone
    · have hnone : rest ⟨{ f.dev with mem := mem }, f.fPos⟩ = 0 := by
        simp only [rest]
        omega
      rw [hnone, Nat.min_zero, copy_zero]
      have hkeep : ∀ (datas : List RwData) pos, datas.foldl (store pos 0) mem = mem := by
        intro datas pos
        induction datas with
        | nil => rfl
        | cons data datas ih => rw [List.foldl_cons, store, Nat.min_zero, copy_zero, ih]
      exact hkeep datas _
    · exact foldl_store_one _ _ _ (hlens ▸ hone)

/-- The buffer of a fresh probe. -/
def zeroedBuf : EmuDmabuf := ⟨0x400000, fun _ => 0, false, rfl⟩

/-- From the start, in pages. -/
theorem reading_never_ends :
    ¬ Streams ⟨zeroedBuf, 0⟩ (fun _ => ⟨⟨4096, by decide⟩, by decide⟩) ∧
      ¬ Stores ⟨zeroedBuf, 0⟩ [⟨[1, 2], by decide⟩, ⟨[3], by decide⟩] := by
  refine ⟨fun h => ?_, fun h => ?_⟩
  · have hend := (streams_iff _).mp h
    contradiction
  · have hbyte := congrFun h 2
    rw [mem_writes] at hbyte
    contradiction

end DmaFile

end MtEmu
