import MtEmu.Lib.Copy
import MtEmu.Lib.Loop
import MtEmu.Ioctl.BarRw

/-!
# MtEmu.Pcief.IoSplit

`pcief_io_write` and `pcief_io_read` (`test/lib/mt_pcie_f.c`): a transfer of any length
through `MT_IOCTL_BAR_RW`, which takes `QY_MAX_RW` bytes at most.

The number of requests is computed in 32 bits without a sign, and `n*QY_MAX_RW` with one.
The first wraps for the lengths close to 2^32, the second from request 1024 on
(`io_splits_iff`).
-/

namespace MtEmu

open Bytes Copy Loop

/-- `BAR_WR`. -/
def barWr : BitVec 8 := 0

/-- `QY_MAX_RW`, in 32 bits. -/
def qyMaxRw32 : U32 := BitVec.ofNat 32 qyMaxRw

/-- A request: the parameters, and where in `data` its bytes are. -/
structure IoReq where
  param : MtEmuParam
  pos : Int

namespace IoReq

/-- The `size` bytes at `data+n*QY_MAX_RW`. -/
def slice (q : IoReq) (data : Int → BitVec 8) : List (BitVec 8) :=
  (List.range q.param.d0.toNat).map fun k : Nat => data (q.pos + k)

/-- What `ioctl` is given for a write. -/
def sent (q : IoReq) (data : Int → BitVec 8) : MtEmuParam × List (BitVec 8) :=
  (q.param, q.slice data)

/-- `memcpy` of `size` bytes to `data+n*QY_MAX_RW`. -/
def fill (q : IoReq) (buf : Mem) (data : Int → BitVec 8) : Int → BitVec 8 :=
  fun x => if q.pos ≤ x ∧ x < q.pos + q.param.d0.toNat then buf (x - q.pos).toNat else data x

/-- The copy that a request makes: from the BAR's offset to the place in `data`, or back. -/
def seg (q : IoReq) : Seg ℤ := ⟨q.param.l0.toNat, q.pos, q.param.d0.toNat⟩

end IoReq

/-- `n*QY_MAX_RW`, an `int`. -/
def ioPos (n : Nat) : U32 := BitVec.ofNat 32 n * qyMaxRw32

/-- Request `n`. -/
def ioReq (bar op : BitVec 8) (offset : U64) (len : U32) (n : Nat) : IoReq :=
  let size := len - ioPos n
  let size := if qyMaxRw32 < size then qyMaxRw32 else size
  ⟨⟨bar, op, size, offset + (ioPos n).signExtend 64⟩, (ioPos n).toInt⟩

/-- `(len+QY_MAX_RW-1)/QY_MAX_RW`. -/
def ioCount (len : U32) : Nat := ((len + qyMaxRw32 - 1) / qyMaxRw32).toNat

/-- A round of `pcief_io_write`; call `n` of `ioctl` returns `ioctl n`, and `calls` is what
the calls so far were given. -/
def ioWriteRound (ioctl : Nat → Int) (bar : BitVec 8) (offset : U64) (len : U32)
    (data : Int → BitVec 8) (n : Nat) (calls : List (MtEmuParam × List (BitVec 8))) :
    Int × List (MtEmuParam × List (BitVec 8)) :=
  (ioctl n, calls ++ [(ioReq bar barWr offset len n).sent data])

/-- `pcief_io_write`, whose `ret` is not initialised. -/
def pciefIoWrite (ioctl : Nat → Int) (ret : Int) (bar : BitVec 8) (offset : U64) (len : U32)
    (data : Int → BitVec 8) : Int × List (MtEmuParam × List (BitVec 8)) :=
  untilFail (ioWriteRound ioctl bar offset len data) (ioCount len) 0 (ret, [])

/-- A round of `pcief_io_read`; call `n` of `ioctl` leaves `bufRd n` in the buffer, and the
data are copied when it succeeds. -/
def ioReadRound (ioctl : Nat → Int) (bufRd : Nat → Mem) (bar : BitVec 8) (offset : U64) (len : U32)
    (n : Nat) (s : List MtEmuParam × (Int → BitVec 8)) :
    Int × List MtEmuParam × (Int → BitVec 8) :=
  let q := ioReq bar barRd offset len n
  (ioctl n, s.1 ++ [q.param], if ioctl n ≠ 0 then s.2 else q.fill (bufRd n) s.2)

/-- `pcief_io_read`, whose `ret` is not initialised: the result, what the calls were given,
and the data. -/
def pciefIoRead (ioctl : Nat → Int) (bufRd : Nat → Mem) (ret : Int) (bar : BitVec 8) (offset : U64)
    (len : U32) (data : Int → BitVec 8) : Int × List MtEmuParam × (Int → BitVec 8) :=
  untilFail (ioReadRound ioctl bufRd bar offset len) (ioCount len) 0 (ret, [], data)

/-! ## what a split is -/

/-- The requests tile `[offset, offset + len)` in order, each of one to `QY_MAX_RW` bytes
and with the same place in the data. -/
structure IoTiles (bar op : BitVec 8) (offset : U64) (len : U32) (reqs : List IoReq) : Prop where
  covers : Covers (offset.toNat : ℤ) 0 len.toNat (reqs.map IoReq.seg)
  each : ∀ q ∈ reqs, q.param.b0 = bar ∧ q.param.b1 = op ∧ 1 ≤ q.param.d0.toNat ∧
    q.param.d0.toNat ≤ qyMaxRw

/-- The data after the first `n` requests of a read. -/
def ioFilled (reqs : List IoReq) (bufRd : Nat → Mem) (data : Int → BitVec 8) (n : Nat) :
    Int → BitVec 8 :=
  (reqs.take n).zipIdx.foldl (fun data q => q.1.fill (bufRd q.2) data) data

/-- A write issues the requests of a tiling, up to the first that fails, and returns what
the last one returned. -/
def WriteSplits (bar : BitVec 8) (offset : U64) (len : U32) : Prop :=
  ∃ reqs, IoTiles bar barWr offset len reqs ∧ ∀ ioctl ret data,
    ((∀ n < reqs.length, ioctl n = 0) →
      pciefIoWrite ioctl ret bar offset len data = (0, reqs.map (IoReq.sent · data))) ∧
    ∀ n < reqs.length, (∀ k < n, ioctl k = 0) → ioctl n ≠ 0 →
      pciefIoWrite ioctl ret bar offset len data =
        (ioctl n, (reqs.take (n + 1)).map (IoReq.sent · data))

/-- A read does, and copies what the requests that succeeded read. -/
def ReadSplits (bar : BitVec 8) (offset : U64) (len : U32) : Prop :=
  ∃ reqs, IoTiles bar barRd offset len reqs ∧ ∀ ioctl bufRd ret data,
    ((∀ n < reqs.length, ioctl n = 0) →
      pciefIoRead ioctl bufRd ret bar offset len data =
        (0, reqs.map IoReq.param, ioFilled reqs bufRd data reqs.length)) ∧
    ∀ n < reqs.length, (∀ k < n, ioctl k = 0) → ioctl n ≠ 0 →
      pciefIoRead ioctl bufRd ret bar offset len data =
        (ioctl n, (reqs.take (n + 1)).map IoReq.param, ioFilled reqs bufRd data n)

/-! ## the requests -/

/-- All requests of a call. -/
def ioReqs (bar op : BitVec 8) (offset : U64) (len : U32) : List IoReq :=
  (List.range (ioCount len)).map (ioReq bar op offset len)

section Requests

variable {bar op : BitVec 8} {offset : U64} {len : U32}

@[simp] theorem length_ioReqs : (ioReqs bar op offset len).length = ioCount len := by
  simp [ioReqs]

theorem take_ioReqs {n : Nat} (hn : n ≤ ioCount len) :
    (ioReqs bar op offset len).take n = (List.range n).map (ioReq bar op offset len) := by
  rw [ioReqs, ← List.map_take, List.take_range, Nat.min_eq_left hn]

theorem ioFilled_succ {bufRd : Nat → Mem} {data : Int → BitVec 8} {n : Nat} (hn : n < ioCount len) :
    ioFilled (ioReqs bar op offset len) bufRd data (n + 1) =
      (ioReq bar op offset len n).fill (bufRd n)
        (ioFilled (ioReqs bar op offset len) bufRd data n) := by
  rw [ioFilled, ioFilled, take_ioReqs hn, take_ioReqs (Nat.le_of_succ_le hn), List.range_succ,
    List.map_append, List.zipIdx_append, List.foldl_append]
  simp

/-- What the calls of a write are given before call `n`. -/
def ioSent (bar : BitVec 8) (offset : U64) (len : U32) (data : Int → BitVec 8) (n : Nat) :
    List (MtEmuParam × List (BitVec 8)) :=
  ((ioReqs bar barWr offset len).take n).map (IoReq.sent · data)

/-- A call of a write. -/
theorem ioWriteRound_sent {ioctl : Nat → Int} {data : Int → BitVec 8} {n : Nat}
    (hn : n < ioCount len) :
    ioWriteRound ioctl bar offset len data n (ioSent bar offset len data n) =
      (ioctl n, ioSent bar offset len data (n + 1)) := by
  rw [ioWriteRound, ioSent, ioSent, take_ioReqs hn, take_ioReqs (Nat.le_of_succ_le hn),
    List.range_succ, List.map_append, List.map_append]
  rfl

/-- The calls of a write. -/
theorem pciefIoWrite_spec (bar : BitVec 8) (offset : U64) (len : U32) (ioctl : Nat → Int)
    (ret : Int) (data : Int → BitVec 8) :
    ((∀ n < ioCount len, ioctl n = 0) →
      pciefIoWrite ioctl ret bar offset len data =
        (if ioCount len = 0 then ret else 0, ioSent bar offset len data (ioCount len))) ∧
    ∀ n < ioCount len, (∀ k < n, ioctl k = 0) → ioctl n ≠ 0 →
      pciefIoWrite ioctl ret bar offset len data =
        (ioctl n, ioSent bar offset len data (n + 1)) :=
  untilFail_spec (ioWriteRound ioctl bar offset len data) (ioSent bar offset len data) ret
    fun n hn => by
      rw [ioWriteRound_sent hn, ite_self]

/-- What the calls of a read are given before call `n`, and the data. -/
def ioGot (bufRd : Nat → Mem) (bar : BitVec 8) (offset : U64) (len : U32)
    (data : Int → BitVec 8) (n : Nat) : List MtEmuParam × (Int → BitVec 8) :=
  (((ioReqs bar barRd offset len).take n).map IoReq.param,
    ioFilled (ioReqs bar barRd offset len) bufRd data n)

/-- A call of a read. -/
theorem ioReadRound_got {ioctl : Nat → Int} {bufRd : Nat → Mem} {data : Int → BitVec 8} {n : Nat}
    (hn : n < ioCount len) :
    ioReadRound ioctl bufRd bar offset len n (ioGot bufRd bar offset len data n) =
      (ioctl n, (ioGot bufRd bar offset len data (n + 1)).1,
        (ioGot bufRd bar offset len data (if ioctl n ≠ 0 then n else n + 1)).2) := by
  simp only [ioReadRound, ioGot]
  rw [take_ioReqs hn, take_ioReqs (Nat.le_of_succ_le hn), List.range_succ, List.map_append,
    List.map_append, apply_ite (ioFilled _ bufRd data), ioFilled_succ hn]
  rfl

/-- The calls of a read, and the data. -/
theorem pciefIoRead_spec (bar : BitVec 8) (offset : U64) (len : U32) (ioctl : Nat → Int)
    (bufRd : Nat → Mem) (ret : Int) (data : Int → BitVec 8) :
    ((∀ n < ioCount len, ioctl n = 0) →
      pciefIoRead ioctl bufRd ret bar offset len data =
        (if ioCount len = 0 then ret else 0, ioGot bufRd bar offset len data (ioCount len))) ∧
    ∀ n < ioCount len, (∀ k < n, ioctl k = 0) → ioctl n ≠ 0 →
      pciefIoRead ioctl bufRd ret bar offset len data =
        (ioctl n, (ioGot bufRd bar offset len data (n + 1)).1,
          (ioGot bufRd bar offset len data n).2) :=
  untilFail_spec (ioReadRound ioctl bufRd bar offset len) (ioGot bufRd bar offset len data) ret
    fun n hn => by
      rw [ioReadRound_got hn]
      by_cases h0 : ioctl n = 0
      · rw [if_neg (not_not_intro h0), if_pos h0]
      · rw [if_pos h0, if_neg h0]

/-! ## positions and sizes -/

theorem qyMaxRw32_toNat : qyMaxRw32.toNat = 0x200000 := rfl

theorem ioCount_toNat : ioCount len = (len.toNat + 0x1fffff) % 0x100000000 / 0x200000 := by
  have hlen := len.isLt
  rw [ioCount, BitVec.toNat_udiv, qyMaxRw32_toNat, BitVec.toNat_sub, BitVec.toNat_add,
    qyMaxRw32_toNat, show (1 : U32).toNat = 1 from rfl]
  omega

theorem ioPos_toNat {n : Nat} (hn : n < 0x800) : (ioPos n).toNat = n * 0x200000 := by
  rw [ioPos, BitVec.toNat_mul, BitVec.toNat_ofNat, qyMaxRw32_toNat]
  omega

/-- The size of request `n`. -/
theorem ioReq_size {n : Nat} (hn : n * 0x200000 < len.toNat) :
    (ioReq bar op offset len n).param.d0.toNat = min 0x200000 (len.toNat - n * 0x200000) := by
  have hlen := len.isLt
  have hpos := ioPos_toNat (n := n) (by omega)
  have hsize : (len - ioPos n).toNat = len.toNat - n * 0x200000 := by
    rw [BitVec.toNat_sub_of_le (by rw [BitVec.le_def, hpos]; omega), hpos]
  show (if qyMaxRw32 < len - ioPos n then qyMaxRw32 else len - ioPos n).toNat = _
  by_cases hlt : qyMaxRw32 < len - ioPos n
  · rw [if_pos hlt, qyMaxRw32_toNat]
    rw [BitVec.lt_def, qyMaxRw32_toNat, hsize] at hlt
    omega
  · rw [if_neg hlt, hsize]
    rw [BitVec.lt_def, qyMaxRw32_toNat, hsize] at hlt
    omega

/-- The offset of request `n`. -/
theorem ioReq_offset {n : Nat} (hn : n < 0x800) :
    (ioReq bar op offset len n).param.l0.toNat =
      (offset.toNat + n * 0x200000 + if n < 0x400 then 0 else 0xffffffff00000000) %
        0x10000000000000000 := by
  have hpos := ioPos_toNat hn
  show (offset + (ioPos n).signExtend 64).toNat = _
  rw [BitVec.toNat_add, BitVec.toNat_signExtend, BitVec.toNat_setWidth, hpos,
    BitVec.msb_eq_decide, hpos]
  by_cases h : n < 0x400
  · rw [if_pos h, if_neg (by simp; omega)]
    omega
  · rw [if_neg h, if_pos (by simp; omega)]
    omega

/-- The place of request `n` in the data. -/
theorem ioReq_pos {n : Nat} (hn : n < 0x400) :
    (ioReq bar op offset len n).pos = (n * 0x200000 : Nat) := by
  have hpos := ioPos_toNat (n := n) (by omega)
  show (ioPos n).toInt = _
  rw [BitVec.toInt_eq_toNat_of_lt (by rw [hpos]; omega), hpos]

/-- The copy of a request whose offset and place do not wrap. -/
theorem ioReq_seg {n : Nat} (hlen : n * 0x200000 < len.toNat) (hn : n < 0x400)
    (hend : offset.toNat + n * 0x200000 < 0x10000000000000000) :
    (ioReq bar op offset len n).seg =
      ⟨(offset.toNat + n * 0x200000 : Nat), (n * 0x200000 : Nat),
        pieceLen 0x200000 len.toNat n⟩ := by
  have hstart : (ioReq bar op offset len n).param.l0.toNat = offset.toNat + n * 0x200000 := by
    rw [ioReq_offset (by omega), if_pos hn]
    omega
  rw [IoReq.seg, hstart, ioReq_pos hn, ioReq_size hlen, pieceLen]

/-! ## tilings -/

/-- No count, offset or place wraps. -/
def IoExact (offset : U64) (len : U32) : Prop :=
  len.toNat ≤ 0x80000000 ∧
    offset.toNat + (len.toNat - 1) / qyMaxRw * qyMaxRw < 0x10000000000000000

theorem ioCount_of_le (hne : len ≠ 0) (hlen : len.toNat ≤ 0xffe00000) :
    ioCount len = (len.toNat - 1) / 0x200000 + 1 := by
  have hpos : 0 < len.toNat := BitVec.toNat_pos_of_ne_zero hne
  rw [ioCount_toNat]
  omega

theorem ioTiles_of_exact (bar op : BitVec 8) (hne : len ≠ 0) (h : IoExact offset len) :
    IoTiles bar op offset len (ioReqs bar op offset len) := by
  obtain ⟨hlen, hend⟩ := h
  have hqy : qyMaxRw = 0x200000 := rfl
  rw [hqy] at hend
  have hpos : 0 < len.toNat := BitVec.toNat_pos_of_ne_zero hne
  have hcount := ioCount_of_le hne (by omega)
  refine ⟨?_, fun q hq => ?_⟩
  · have hcover : Covers (offset.toNat : ℤ) 0
        (∑ i ∈ Finset.range ((ioReqs bar op offset len).map IoReq.seg).length,
          pieceLen 0x200000 len.toNat i) ((ioReqs bar op offset len).map IoReq.seg) :=
      covers_of_offsets fun k s hs => by
        rw [ioReqs, List.map_map, List.getElem?_map, Option.map_eq_some_iff] at hs
        obtain ⟨n, hn, rfl⟩ := hs
        obtain ⟨hk, rfl⟩ := List.getElem?_eq_some_iff.mp hn
        rw [List.length_range, hcount] at hk
        have hin : k * 0x200000 < len.toNat := by omega
        have hround := Nat.mul_le_mul_right 0x200000 (Nat.le_of_lt_succ hk)
        have hstart := (Nat.add_le_add_left hround offset.toNat).trans_lt hend
        rw [sum_pieceLen, Nat.min_eq_right hin.le, List.getElem_range, Function.comp_apply,
          ioReq_seg hin (by omega) hstart]
        exact ⟨Nat.cast_add _ _, (zero_add _).symm, rfl⟩
    rw [sum_pieceLen, List.length_map, length_ioReqs, hcount, Nat.min_eq_left (by omega)] at hcover
    exact hcover
  · rw [ioReqs, List.mem_map] at hq
    obtain ⟨n, hn, rfl⟩ := hq
    rw [List.mem_range, hcount] at hn
    rw [ioReq_size (by omega), hqy]
    exact ⟨rfl, rfl, by omega, by omega⟩

theorem ioCount_ne_zero (hne : len ≠ 0) (h : IoExact offset len) : ioCount len ≠ 0 := by
  rw [ioCount_of_le hne (by have := h.1; omega)]
  exact Nat.succ_ne_zero _

/-- Parameters of a tiling are those of requests that do not wrap. -/
theorem exact_of_ioTiles {reqs : List IoReq} (hne : len ≠ 0) (h : IoTiles bar op offset len reqs)
    (hparams : reqs.map IoReq.param = (ioReqs bar op offset len).map IoReq.param) :
    IoExact offset len := by
  have hlt := len.isLt
  have hoff := offset.isLt
  have hpos : 0 < len.toNat := BitVec.toNat_pos_of_ne_zero hne
  -- every request is in the range
  have hbounds {n : Nat} (hn : n < ioCount len) :
      offset.toNat ≤ (ioReq bar op offset len n).param.l0.toNat ∧
        (ioReq bar op offset len n).param.l0.toNat ≤ offset.toNat + len.toNat := by
    have hmem : (ioReq bar op offset len n).param ∈ reqs.map IoReq.param := by
      rw [hparams, ioReqs]
      exact List.mem_map_of_mem (List.mem_map_of_mem (List.mem_range.mpr hn))
    obtain ⟨q, hq, hparam⟩ := List.mem_map.mp hmem
    have hseg := h.covers.seg_bounds (List.mem_map_of_mem hq)
    simp only [IoReq.seg, hparam] at hseg
    omega
  have hcount : len.toNat ≤ 0xffe00000 := by
    by_contra! hmany
    have hnone : ioCount len = 0 := by
      rw [ioCount_toNat]
      omega
    rw [ioReqs, hnone] at hparams
    obtain rfl : reqs = [] := by simpa using hparams
    have hzero : len.toNat = 0 := h.covers
    omega
  have hsome := ioCount_of_le hne hcount
  have hlen : len.toNat ≤ 0x80000000 := by
    by_contra! hlong
    have := hbounds (n := 0x400) (by omega)
    rw [ioReq_offset (by omega), if_neg (by omega)] at this
    omega
  refine ⟨hlen, ?_⟩
  have hlast := hbounds (n := ioCount len - 1) (by omega)
  rw [ioReq_offset (by omega), if_pos (by omega), hsome, Nat.add_sub_cancel] at hlast
  rw [show qyMaxRw = 0x200000 from rfl]
  omega

end Requests

/-- **Split**: `pcief_io_write` and `pcief_io_read` split a transfer as they should exactly
when its length is at most 2^31 and its last request starts below 2^64. -/
theorem io_splits_iff (bar : BitVec 8) (offset : U64) {len : U32} (hne : len ≠ 0) :
    (WriteSplits bar offset len ↔ IoExact offset len) ∧
      (ReadSplits bar offset len ↔ IoExact offset len) := by
  refine ⟨⟨fun ⟨reqs, htiles, hrun⟩ => ?_, fun h => ?_⟩,
    ⟨fun ⟨reqs, htiles, hrun⟩ => ?_, fun h => ?_⟩⟩
  · have hall := (hrun (fun _ => 0) 0 fun _ => 0).1 fun _ _ => rfl
    rw [(pciefIoWrite_spec _ _ _ _ _ _).1 fun _ _ => rfl, ite_self, Prod.mk.injEq] at hall
    have hparams := congrArg (List.map Prod.fst) hall.2
    rw [ioSent, List.take_of_length_le (by rw [length_ioReqs]), List.map_map,
      List.map_map] at hparams
    exact exact_of_ioTiles hne htiles hparams.symm
  · have htiles := ioTiles_of_exact bar barWr hne h
    refine ⟨_, htiles, fun ioctl ret data => ?_⟩
    obtain ⟨hok, hfail⟩ := pciefIoWrite_spec bar offset len ioctl ret data
    rw [if_neg (ioCount_ne_zero hne h)] at hok
    rw [length_ioReqs]
    refine ⟨fun h0 => ?_, hfail⟩
    rw [hok h0, ioSent, List.take_of_length_le (by rw [length_ioReqs])]
  · have hall := (hrun (fun _ => 0) (fun _ _ => 0) 0 fun _ => 0).1 fun _ _ => rfl
    rw [(pciefIoRead_spec _ _ _ _ _ _ _).1 fun _ _ => rfl, ite_self, Prod.mk.injEq] at hall
    have hparams := congrArg Prod.fst hall.2
    rw [ioGot, List.take_of_length_le (by rw [length_ioReqs])] at hparams
    exact exact_of_ioTiles hne htiles hparams.symm
  · have htiles := ioTiles_of_exact bar barRd hne h
    refine ⟨_, htiles, fun ioctl bufRd ret data => ?_⟩
    obtain ⟨hok, hfail⟩ := pciefIoRead_spec bar offset len ioctl bufRd ret data
    rw [if_neg (ioCount_ne_zero hne h)] at hok
    rw [length_ioReqs]
    refine ⟨fun h0 => ?_, hfail⟩
    rw [hok h0, ioGot, List.take_of_length_le (by rw [length_ioReqs])]

/-- One byte more than `QY_MAX_RW`: two requests. -/
theorem io_splits_iff_two :
    (WriteSplits 2 0x1000 0x200001 ↔ IoExact 0x1000 0x200001) ∧
      (ReadSplits 2 0x1000 0x200001 ↔ IoExact 0x1000 0x200001) :=
  io_splits_iff 2 0x1000 (by decide)

/-- The greatest length: no request is issued, and what is returned is what `ret` holds. -/
theorem nothing_issued :
    pciefIoWrite (fun _ => -1) 0 2 0 0xffffffff (fun _ => 0) = (0, []) ∧
      ¬WriteSplits 2 0 0xffffffff := by
  refine ⟨rfl, ?_⟩
  rintro ⟨reqs, htiles, hrun⟩
  have hall := (hrun (fun _ => 0) 0 fun _ => 0).1 fun _ _ => rfl
  have hnone : pciefIoWrite (fun _ => 0) 0 2 0 0xffffffff (fun _ => 0) = (0, []) := rfl
  rw [hnone, Prod.mk.injEq] at hall
  obtain rfl : reqs = [] := by simpa using hall.2
  have hzero : (0xffffffff : U32).toNat = 0 := htiles.covers
  contradiction

end MtEmu
