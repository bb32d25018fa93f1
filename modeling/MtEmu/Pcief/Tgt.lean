import MtEmu.Lib.Copy
import MtEmu.Ipc.Mailbox
import MtEmu.Pcief.Bounds

/-!
# MtEmu.Pcief.Tgt

`pcief_tgt_wr` and `pcief_tgt_rd` (`test/lib/mt_pcie_f.c`): a transfer of any length to or
from the memory of a target, in commands of at most `PCIEF_CMD_SIZE` bytes.

The data of a command goes through an area of BAR 0 behind the mailbox.  A write stores it
there before the command, a read loads it after the response.  What the driver and the target
do while a command is in the ioctl is arbitrary: it is the answer `ipc n` to command `n`.

Both functions are loops over the commands that end at the first one that fails.  The
invariant (`TgtInv`) says that the loop stands between two segments of a fixed tiling
(`tgtSegs`), that the commands for those in front have been issued and no others, and what
each of them was given; a round moves it by one segment.
-/

namespace MtEmu

open Bytes Loop
open Copy hiding store

/-! ## the mailbox in BAR 0 -/

/-- `PCIEF_DATA_ADDR`: where the data of a command is in BAR 0. -/
def pciefDataAddr : U64 := 0x1e4f800

/-- `PCIEF_CMD_SIZE`, in 32 bits. -/
def pciefCmdSize32 : U32 := BitVec.ofNat 32 pciefCmdSize

/-- `cmd_addr` and `res_addr` of `pcief_send_tgt_cmd`, where the mailbox of a target begins for
commands and for responses; other targets are refused. -/
def tgtAddrs (target : Byte) : Option (U32 × U32) :=
  if target = 2 then some (0x1e4f400, 0x1e4f420)
  else if target = 1 then some (0x1e4f440, 0x1e4f460)
  else if target = 0 then some (0x1e4f480, 0x1e4f4a0)
  else none

/-- `sizeof(struct pcief_tgt_cmd_res)`. -/
def tgtCmdResSize : U32 := 32

namespace PciefTgtCmdRes

/-- The bytes of the structure, in the order of its fields. -/
def mem (c : PciefTgtCmdRes) : Mem :=
  let m := store (fun _ => 0) 0 1 c.head.cmd.toNat
  let m := store m 1 1 c.head.tag.toNat
  let m := store m 2 2 c.head.other.toNat
  let m := store m 4 4 c.head.para0.toNat
  let m := store m 8 8 c.para1.toNat
  let m := store m 16 8 c.para2.toNat
  store m 24 8 c.para3.toNat

/-- The structure at an address. -/
def ofMem (m : Mem) (a : Nat) : PciefTgtCmdRes where
  head :=
    { cmd := BitVec.ofNat 8 (load m a 1)
      tag := BitVec.ofNat 8 (load m (a + 1) 1)
      other := BitVec.ofNat 16 (load m (a + 2) 2)
      para0 := BitVec.ofNat 32 (load m (a + 4) 4) }
  para1 := BitVec.ofNat 64 (load m (a + 8) 8)
  para2 := BitVec.ofNat 64 (load m (a + 16) 8)
  para3 := BitVec.ofNat 64 (load m (a + 24) 8)

theorem ofNat_load_store {w : Nat} (m : Mem) (a n : Nat) (v : BitVec w) (hw : 256 ^ n = 2 ^ w) :
    BitVec.ofNat w (load (store m a n v.toNat) a n) = v := by
  apply BitVec.eq_of_toNat_eq
  rw [load_store_self, BitVec.toNat_ofNat, hw, Nat.mod_mod, Nat.mod_eq_of_lt v.isLt]

/-- The bytes determine the structure, and the structure its bytes. -/
theorem ofMem_mem (c : PciefTgtCmdRes) : ofMem c.mem 0 = c := by
  simp (disch := omega) only [ofMem, mem, Nat.zero_add, load_store_of_disjoint]
  rw [ofNat_load_store _ _ _ _ rfl, ofNat_load_store _ _ _ _ rfl, ofNat_load_store _ _ _ _ rfl,
    ofNat_load_store _ _ _ _ rfl, ofNat_load_store _ _ _ _ rfl, ofNat_load_store _ _ _ _ rfl,
    ofNat_load_store _ _ _ _ rfl]

/-- A copy of the structure is the structure, wherever it is copied to. -/
theorem ofMem_copy (src dst : Mem) (a b : Nat) : ofMem (copy src a dst b 32) b = ofMem src a := by
  have hcmd := load_copy src a dst b 32 (i := 0) (k := 1) (by decide)
  simp (disch := omega) only [ofMem, load_copy, Nat.add_zero] at hcmd ⊢
  rw [hcmd]

end PciefTgtCmdRes

/-! ## commands -/

/-- What is behind a command's ioctl: its result and `b0`, and the bytes of the BAR, all of
which the target may have written meanwhile. -/
structure IpcAnswer where
  ret : Int
  b0 : Byte
  mem : Mem

/-- `*done` of `pcief_tgt_cmd`. -/
def IpcAnswer.done (a : IpcAnswer) : U32 := if a.ret ≠ 0 then 0 else a.b0.setWidth 32

/-- What the ioctl of a command is given: the target, and the bytes of the BAR, in which the
command and its data are. -/
structure TgtRing where
  target : Byte
  mem : Mem

/-- BAR 0 of the GPU function, the ioctls so far, and how far `data` has moved. -/
structure TgtHost where
  bar : PciefBar
  rings : List TgtRing
  ptr : Nat

/-- `pcief_send_tgt_cmd` with the response that it leaves in `res`, cleared before. -/
def pciefSendTgtCmdRes (ipc : Nat → IpcAnswer) (target : Byte) (cmd : PciefTgtCmdRes)
    (h : TgtHost) : Option (Int × TgtHost × PciefTgtCmdRes) :=
  match tgtAddrs target with
  | none => some (-1, h, .zero)
  | some (cmdAddr, resAddr) => do
      let (_, bar) ← pciefWrite h.bar (cmdAddr.setWidth 64) tgtCmdResSize cmd.mem
      let answer := ipc h.rings.length
      let h := { h with
        bar := { bar with mem := answer.mem }
        rings := h.rings ++ [⟨target, bar.mem⟩] }
      if answer.done ≠ 1 then return (-1, h, .zero)
      let (_, bar, res) ←
        pciefRead h.bar (resAddr.setWidth 64) tgtCmdResSize PciefTgtCmdRes.zero.mem
      let h := { h with bar := bar }
      let res := PciefTgtCmdRes.ofMem res 0
      if res.head.tag ≠ pciefResTag ∨ res.head.cmd ≠ cmd.head.cmd then return (-1, h, res)
      return (0, h, res)

/-- `pcief_send_tgt_cmd` for a caller that does not look at `res`, as those of transfers
do not. -/
def pciefSendTgtCmd (ipc : Nat → IpcAnswer) (target : Byte) (cmd : PciefTgtCmdRes) (h : TgtHost) :
    Option (Int × TgtHost) :=
  (pciefSendTgtCmdRes ipc target cmd h).map fun (ret, h, _) => (ret, h)

/-- `cmd` of `pcief_tgt_wr` and `pcief_tgt_rd`: the operation, the length and the address in
the memory of the target. -/
def tgtRwCmd (op : Byte) (len : U32) (addr : U64) : PciefTgtCmdRes :=
  ⟨⟨op, pciefCmdTag, 0, len⟩, addr, 0, 0⟩

/-- A round of `pcief_tgt_wr`: the next data are stored in BAR 0, and the command is sent. -/
def tgtWrRound (ipc : Nat → IpcAnswer) (target : Byte) (address : U64) (data : Mem)
    (pos len : U32) (h : TgtHost) : Option (Int × TgtHost) := do
  let (_, bar) ← pciefWrite h.bar pciefDataAddr len fun k => data (h.ptr + k)
  let cmd := tgtRwCmd 0x4 len (address + pos.setWidth 64)
  let (ret, h) ← pciefSendTgtCmd ipc target cmd { h with bar := bar }
  if ret ≠ 0 then return (-1, h)
  return (0, { h with ptr := h.ptr + len.toNat })

/-- `pcief_tgt_wr`. -/
def TgtHost.pciefTgtWr (ipc : Nat → IpcAnswer) (target : Byte) (address : U64) (data : Mem)
    (size : U32) (bar : PciefBar) : Option (Int × TgtHost) :=
  whilePieces pciefCmdSize32 (tgtWrRound ipc target address data) size.toNat 0 size ⟨bar, [], 0⟩

/-- A round of `pcief_tgt_rd`: the command is sent, and when it succeeds its data are loaded
from BAR 0 behind those of the rounds before. -/
def tgtRdRound (ipc : Nat → IpcAnswer) (target : Byte) (address : U64) (pos len : U32)
    (s : TgtHost × Mem) : Option (Int × TgtHost × Mem) := do
  let cmd := tgtRwCmd 0x3 len (address + pos.setWidth 64)
  let (ret, h) ← pciefSendTgtCmd ipc target cmd s.1
  if ret ≠ 0 then return (-1, h, s.2)
  let (_, bar, data) ← pciefRead h.bar pciefDataAddr len fun k => s.2 (h.ptr + k)
  return (0, { h with bar := bar, ptr := h.ptr + len.toNat },
    fun x => if x < h.ptr then s.2 x else data (x - h.ptr))

/-- `pcief_tgt_rd`: the result, the host and the data. -/
def TgtHost.pciefTgtRd (ipc : Nat → IpcAnswer) (target : Byte) (address : U64) (data : Mem)
    (size : U32) (bar : PciefBar) : Option (Int × TgtHost × Mem) :=
  whilePieces pciefCmdSize32 (tgtRdRound ipc target address) size.toNat 0 size (⟨bar, [], 0⟩, data)

/-! ## one command -/

namespace PciefTgt

/-- `cmd_addr`. -/
def cmdAddr : PciefTgt → U32
  | .smc => 0x1e4f400
  | .fec => 0x1e4f440
  | .dsp => 0x1e4f480

/-- `res_addr`. -/
def resAddr : PciefTgt → U32
  | .smc => 0x1e4f420
  | .fec => 0x1e4f460
  | .dsp => 0x1e4f4a0

theorem tgtAddrs_b0 (t : PciefTgt) : tgtAddrs t.b0 = some (t.cmdAddr, t.resAddr) := by
  cases t <;> rfl

/-- The bytes of BAR 0 that commands to the target go through: its command, its response and
the data area. -/
def Uses (t : PciefTgt) (a : Nat) : Prop :=
  (pciefDataAddr.toNat ≤ a ∧ a < pciefDataAddr.toNat + pciefCmdSize) ∨
    (t.cmdAddr.toNat ≤ a ∧ a < t.cmdAddr.toNat + 32) ∨
    (t.resAddr.toNat ≤ a ∧ a < t.resAddr.toNat + 32)

/-- They are in front of the data area. -/
theorem addrs_lt (t : PciefTgt) :
    t.cmdAddr.toNat + 32 ≤ pciefDataAddr.toNat ∧ t.resAddr.toNat + 32 ≤ pciefDataAddr.toNat := by
  cases t <;> decide

end PciefTgt

/-- The mailbox and its data area are in the BAR. -/
def PciefBar.HoldsMailbox (b : PciefBar) : Prop :=
  pciefDataAddr.toNat + pciefCmdSize ≤ b.barSize.toNat

/-- A write inside the BAR ends, stores the data from the offset on, and touches nothing
else. -/
theorem pciefWrite_inside (b : PciefBar) (offset : U64) (len : U32) (data : Mem)
    (hin : offset.toNat + len.toNat ≤ b.barSize.toNat)
    (hlen : len.toNat < 0x80000000) :
    ∃ b', pciefWrite b offset len data = some (0, b') ∧ b.Written offset data len.toNat b' ∧
      b'.touched = b.touched ++ rangeBytes offset len.toNat := by
  obtain ⟨b', hrun, hb'⟩ := pciefWrite_spec data hin hlen
  obtain ⟨s', hend, htouched⟩ := pciefTransfer_touched PciefBar.touched (s := b)
    (fun n i s => rfl (a := (pciefWriteAt offset data n i s).touched)) hlen
  have hacc := accepts_of_le hin
  rw [pciefWrite, if_neg (not_not_intro hacc), hend] at hrun
  obtain rfl : s' = b' := congrArg Prod.snd (Option.some.inj hrun)
  refine ⟨s', ?_, hb', htouched⟩
  rw [pciefWrite, if_neg (not_not_intro hacc), hend]
  rfl

/-- A write ends, inside the BAR or not. -/
theorem pciefWrite_ends (b : PciefBar) (offset : U64) (len : U32) (data : Mem) :
    ∃ e b', pciefWrite b offset len data = some (e, b') := by
  by_cases hacc : b.Accepts offset len
  · obtain ⟨s, hrun⟩ := pciefTransfer_ends (pciefWriteAt offset data) len b
    exact ⟨0, s, by rw [pciefWrite, if_neg (not_not_intro hacc), hrun]; rfl⟩
  · exact ⟨-1, b, if_pos hacc⟩

/-- A read inside the BAR ends, loads the bytes from the offset on, and leaves the BAR. -/
theorem pciefRead_inside (b : PciefBar) (offset : U64) (len : U32) (data : Mem)
    (hin : offset.toNat + len.toNat ≤ b.barSize.toNat)
    (hlen : len.toNat < 0x80000000) :
    ∃ s, pciefRead b offset len data = some (0, s) ∧ b.ReadBack offset data len.toNat s ∧
      s.1.barSize = b.barSize ∧ s.1.touched = b.touched ++ rangeBytes offset len.toNat := by
  have hsize := b.barSize.isLt
  obtain ⟨s, hrun, hs⟩ := pciefTransfer_reach (pciefReadAt offset) len (s := (b, data))
    (fun i s => b.ReadBack offset data i s ∧ s.1.barSize = b.barSize ∧
      s.1.touched = b.touched ++ rangeBytes offset i)
    (fun n i s hn hi hs => by
      have hpos := hn.pos
      refine ⟨readBack_step (by omega) (by omega) hs.1, hs.2.1, ?_⟩
      rw [← rangeBytes_append n (by omega), ← List.append_assoc, ← hs.2.2]
      rfl)
    ⟨⟨rfl, (copy_zero ..).symm⟩, rfl, (List.append_nil _).symm⟩
  refine ⟨s, ?_, hs⟩
  rw [pciefRead, if_neg (not_not_intro (accepts_of_le hin)), hrun]
  rfl

/-- A range that does not wrap, byte by byte. -/
theorem toNat_of_mem_rangeBytes {offset a : U64} {n : Nat} (size : U64)
    (hin : offset.toNat + n ≤ size.toNat) (ha : a ∈ rangeBytes offset n) :
    offset.toNat ≤ a.toNat ∧ a.toNat < offset.toNat + n := by
  have hsize := size.isLt
  obtain ⟨k, hk, rfl⟩ := mem_rangeBytes.mp ha
  rw [BitVec.toNat_add, BitVec.toNat_ofNat]
  omega

/-- What `pcief_send_tgt_cmd` makes of an answer: an ioctl that fails, a command that is not
done, and a response that is none or another command's are failures. -/
def IpcAnswer.result (a : IpcAnswer) (t : PciefTgt) (op : Byte) : Int :=
  let res := PciefTgtCmdRes.ofMem a.mem t.resAddr.toNat
  if a.done ≠ 1 ∨ res.head.tag ≠ pciefResTag ∨ res.head.cmd ≠ op then -1 else 0

theorem IpcAnswer.result_of_ne_zero {a : IpcAnswer} {t : PciefTgt} {op : Byte}
    (h : a.result t op ≠ 0) : a.result t op = -1 := by
  exact if_pos (by_contra fun hok => h (if_neg hok))

/-- A command has been sent: what the host and BAR 0 are then, and what its ioctl was given. -/
structure TgtSent (ipc : Nat → IpcAnswer) (t : PciefTgt) (cmd : PciefTgtCmdRes)
    (h h' : TgtHost) : Prop where
  size : h'.bar.barSize = h.bar.barSize
  mem : h'.bar.mem = (ipc h.rings.length).mem
  ptr : h'.ptr = h.ptr
  rings : h'.rings = h.rings ++ [⟨t.b0, copy cmd.mem 0 h.bar.mem t.cmdAddr.toNat 32⟩]
  touched : ∀ a ∈ h'.bar.touched, a ∈ h.bar.touched ∨ t.Uses a.toNat

theorem pciefSendTgtCmdRes_spec (ipc : Nat → IpcAnswer) (t : PciefTgt) (cmd : PciefTgtCmdRes)
    (h : TgtHost) (hbar : h.bar.HoldsMailbox) :
    ∃ h' res, pciefSendTgtCmdRes ipc t.b0 cmd h =
        some ((ipc h.rings.length).result t cmd.head.cmd, h', res) ∧ TgtSent ipc t cmd h h' ∧
      ((ipc h.rings.length).result t cmd.head.cmd = 0 →
        res = PciefTgtCmdRes.ofMem (ipc h.rings.length).mem t.resAddr.toNat) := by
  have hbound := t.addrs_lt
  have hcmd : (t.cmdAddr.setWidth 64).toNat = t.cmdAddr.toNat := by cases t <;> rfl
  have hres : (t.resAddr.setWidth 64).toNat = t.resAddr.toNat := by cases t <;> rfl
  have hsize : tgtCmdResSize.toNat = 32 := rfl
  rw [PciefBar.HoldsMailbox] at hbar
  obtain ⟨b, hwrite, ⟨hbsize, hbmem⟩, hbtouched⟩ :=
    pciefWrite_inside h.bar (t.cmdAddr.setWidth 64) tgtCmdResSize cmd.mem (by omega) (by decide)
  rw [hcmd, hsize] at hbmem
  have hbuses : ∀ a ∈ b.touched, a ∈ h.bar.touched ∨ t.Uses a.toNat := fun a ha => by
    rw [hbtouched, List.mem_append] at ha
    refine ha.imp_right fun hmem => .inr (.inl ?_)
    have := toNat_of_mem_rangeBytes h.bar.barSize (by omega) hmem
    rwa [hcmd] at this
  let b1 : PciefBar := { b with mem := (ipc h.rings.length).mem }
  have hb1 : (t.resAddr.setWidth 64).toNat + tgtCmdResSize.toNat ≤ b1.barSize.toNat := by
    show _ ≤ b.barSize.toNat
    rw [hbsize]
    omega
  obtain ⟨s, hread, ⟨hsmem, hsdata⟩, hssize, hstouched⟩ :=
    pciefRead_inside b1 (t.resAddr.setWidth 64) tgtCmdResSize PciefTgtCmdRes.zero.mem hb1
      (by decide)
  rw [hres, hsize] at hsdata
  rw [pciefSendTgtCmdRes, t.tgtAddrs_b0]
  simp only [hwrite, Option.bind_eq_bind, Option.bind_some]
  by_cases hdone : (ipc h.rings.length).done ≠ 1
  · rw [if_pos hdone, IpcAnswer.result, if_pos (.inl hdone)]
    exact ⟨_, _, rfl, ⟨hbsize, rfl, rfl, by rw [hbmem], hbuses⟩, nofun⟩
  · rw [if_neg hdone, hread]
    simp only [Option.bind_some]
    have hofMem : PciefTgtCmdRes.ofMem s.2 0 =
        PciefTgtCmdRes.ofMem (ipc h.rings.length).mem t.resAddr.toNat := by
      rw [hsdata]
      exact PciefTgtCmdRes.ofMem_copy _ _ _ 0
    have huses : ∀ a ∈ s.1.touched, a ∈ h.bar.touched ∨ t.Uses a.toNat := fun a ha => by
      rw [hstouched, List.mem_append] at ha
      refine ha.elim (hbuses a) fun hmem => .inr (.inr (.inr ?_))
      have := toNat_of_mem_rangeBytes b1.barSize hb1 hmem
      rwa [hres] at this
    have hsent : TgtSent ipc t cmd h
        { h with bar := s.1, rings := h.rings ++ [⟨t.b0, b.mem⟩] } :=
      ⟨hssize.trans hbsize, hsmem, rfl, by rw [hbmem], huses⟩
    by_cases hbad : (PciefTgtCmdRes.ofMem s.2 0).head.tag ≠ pciefResTag ∨
        (PciefTgtCmdRes.ofMem s.2 0).head.cmd ≠ cmd.head.cmd
    · refine ⟨_, _, ?_, hsent, fun _ => hofMem⟩
      rw [if_pos hbad, IpcAnswer.result, ← hofMem, if_pos (.inr hbad)]
      rfl
    · refine ⟨_, _, ?_, hsent, fun _ => hofMem⟩
      rw [if_neg hbad, IpcAnswer.result, ← hofMem, if_neg (not_or.mpr ⟨hdone, hbad⟩)]
      rfl

/-- An unknown target gets no command, and nothing was written for it. -/
theorem pciefSendTgtCmd_unknown (ipc : Nat → IpcAnswer) {target : Byte}
    (htarget : tgtAddrs target = none) (cmd : PciefTgtCmdRes) (h : TgtHost) :
    pciefSendTgtCmd ipc target cmd h = some (-1, h) := by
  rw [pciefSendTgtCmd, pciefSendTgtCmdRes, htarget]
  rfl

theorem pciefSendTgtCmd_spec (ipc : Nat → IpcAnswer) (t : PciefTgt) (cmd : PciefTgtCmdRes)
    (h : TgtHost) (hbar : h.bar.HoldsMailbox) :
    ∃ h', pciefSendTgtCmd ipc t.b0 cmd h =
        some ((ipc h.rings.length).result t cmd.head.cmd, h') ∧ TgtSent ipc t cmd h h' := by
  obtain ⟨h', res, hrun, hsent, -⟩ := pciefSendTgtCmdRes_spec ipc t cmd h hbar
  exact ⟨h', by rw [pciefSendTgtCmd, hrun]; rfl, hsent⟩

/-! ## what a split is -/

/-- The segments tile `[address, address + size)` in order, each of one to `PCIEF_CMD_SIZE`
bytes and with the same place in the data. -/
structure TgtTiles (address : U64) (size : U32) (segs : List (Seg U64)) : Prop where
  covers : Covers address 0 size.toNat segs
  each : ∀ s ∈ segs, 1 ≤ s.len ∧ s.len ≤ pciefCmdSize

/-- The ioctl of the command for a segment: the command is in the mailbox, and `stored` bytes
of the data are in the data area.  The rest of the BAR is as before. -/
structure TgtRing.Issues (t : PciefTgt) (op : Byte) (stored : Nat) (data before : Mem)
    (s : Seg U64) (r : TgtRing) : Prop where
  target : r.target = t.b0
  cmd : PciefTgtCmdRes.ofMem r.mem t.cmdAddr.toNat = tgtRwCmd op (BitVec.ofNat 32 s.len) s.src
  data : slice r.mem pciefDataAddr.toNat stored = slice data s.dst.toNat stored
  frame : ∀ a, ¬(t.cmdAddr.toNat ≤ a ∧ a < t.cmdAddr.toNat + 32) →
    ¬(pciefDataAddr.toNat ≤ a ∧ a < pciefDataAddr.toNat + stored) → r.mem a = before a

/-- The bytes of the BAR in front of command `n`: those at the start, and then what the command
before it left. -/
def memBefore (ipc : Nat → IpcAnswer) (mem : Mem) : Nat → Mem
  | 0 => mem
  | n + 1 => (ipc n).mem

/-- The commands for the first `n` segments have been issued, and no others. -/
structure TgtIssued (ipc : Nat → IpcAnswer) (t : PciefTgt) (op : Byte) (stored : Seg U64 → Nat)
    (data : Mem) (bar : PciefBar) (segs : List (Seg U64)) (n : Nat) (h : TgtHost) : Prop where
  count : h.rings.length = n
  each : ∀ k s, k < n → segs[k]? = some s → ∃ r, h.rings[k]? = some r ∧
    r.Issues t op (stored s) data (memBefore ipc bar.mem k) s
  touched : ∀ a ∈ h.bar.touched, a ∈ bar.touched ∨ t.Uses a.toNat

/-- The data of the first `n` segments have been read, and no others. -/
structure TgtFilled (ipc : Nat → IpcAnswer) (segs : List (Seg U64)) (data : Mem) (n : Nat)
    (data' : Mem) : Prop where
  each : ∀ k s, k < n → segs[k]? = some s →
    slice data' s.dst.toNat s.len = slice (ipc k).mem pciefDataAddr.toNat s.len
  rest : ∀ x, (∀ k s, k < n → segs[k]? = some s →
    ¬(s.dst.toNat ≤ x ∧ x < s.dst.toNat + s.len)) → data' x = data x

/-! ## the rounds -/

section Rounds

variable {ipc : Nat → IpcAnswer} {t : PciefTgt} {op : Byte} {stored : Seg U64 → Nat}
  {data : Mem} {bar : PciefBar} {segs : List (Seg U64)} {n : Nat} {h h' : TgtHost} {s : Seg U64}

/-- The next command is issued: the ioctls so far and one more. -/
theorem TgtIssued.send (hi : TgtIssued ipc t op stored data bar segs n h) (h1 : TgtHost)
    (hseg : segs[n]? = some s) (hrings : h1.rings = h.rings)
    (htouched : ∀ a ∈ h1.bar.touched, a ∈ bar.touched ∨ t.Uses a.toNat)
    (hmem : h1.bar.mem =
      copy data s.dst.toNat (memBefore ipc bar.mem n) pciefDataAddr.toNat (stored s))
    (hsent : TgtSent ipc t (tgtRwCmd op (BitVec.ofNat 32 s.len) s.src) h1 h') :
    TgtIssued ipc t op stored data bar segs (n + 1) h' := by
  have hbound := t.addrs_lt
  have hcount := hi.count
  refine ⟨?_, fun k s' hk hs' => ?_, fun a ha => (hsent.touched a ha).elim (htouched a) .inr⟩
  · rw [hsent.rings, hrings, List.length_append, hcount]
    rfl
  · rw [hsent.rings, hrings]
    obtain hlt | rfl := Nat.lt_succ_iff_lt_or_eq.mp hk
    · obtain ⟨r, hr, hissues⟩ := hi.each k s' hlt hs'
      exact ⟨r, by rw [List.getElem?_append_left (by omega), hr], hissues⟩
    · obtain rfl : s = s' := Option.some.inj (hseg.symm.trans hs')
      refine ⟨_, by rw [List.getElem?_append_right (by omega), hcount, Nat.sub_self]; rfl, rfl,
        ?_, ?_, fun a hcmd hdata => ?_⟩
      · exact (PciefTgtCmdRes.ofMem_copy _ _ 0 _).trans (PciefTgtCmdRes.ofMem_mem _)
      · rw [← slice_copy data s.dst.toNat (memBefore ipc bar.mem k) pciefDataAddr.toNat, ← hmem]
        exact List.map_congr_left fun j _ => if_neg (by omega)
      · exact (if_neg hcmd).trans (by rw [hmem, copy, if_neg hdata])

/-- **The invariant**: what a transfer has done when `n` segments are through.  The BAR is as
the last answer left it, and `data` has moved to the next segment. -/
structure TgtInv (ipc : Nat → IpcAnswer) (t : PciefTgt) (op : Byte) (stored : Seg U64 → Nat)
    (data : Mem) (bar : PciefBar) (size : Nat) (segs : List (Seg U64)) (n : Nat)
    (h : TgtHost) : Prop where
  issued : TgtIssued ipc t op stored data bar segs n h
  barSize : h.bar.barSize = bar.barSize
  mem : h.bar.mem = memBefore ipc bar.mem n
  ptr : h.ptr = min size (n * pciefCmdSize)

theorem tgtInv_zero (size : Nat) : TgtInv ipc t op stored data bar size segs 0 ⟨bar, [], 0⟩ :=
  ⟨⟨rfl, fun k _ hk _ => absurd hk (Nat.not_lt_zero k), fun _ ha => .inl ha⟩, rfl, rfl, by simp⟩

end Rounds

/-- The segments of a transfer: all but the last have `PCIEF_CMD_SIZE` bytes. -/
def tgtSegs (address : U64) (size : U32) : List (Seg U64) :=
  pieces pciefCmdSize size.toNat address 0

theorem tgtTiles_tgtSegs (address : U64) (size : U32) :
    TgtTiles address size (tgtSegs address size) :=
  ⟨covers_pieces (by decide) address 0, fun _ hs => len_pieces (by decide) hs⟩

/-- Segment `k` begins at a multiple of `PCIEF_CMD_SIZE` and has what is left up to as much. -/
theorem tgtSegs_getElem? (address : U64) (size : U32) {k : Nat}
    (hk : k * pciefCmdSize < size.toNat) :
    ∃ s, (tgtSegs address size)[k]? = some s ∧
      s.src = address + (BitVec.ofNat 32 (k * pciefCmdSize)).setWidth 64 ∧
      s.dst.toNat = k * pciefCmdSize ∧ s.len = pieceLen pciefCmdSize size.toNat k := by
  have hsize := size.isLt
  have hlt : k < numPieces pciefCmdSize size.toNat := (lt_numPieces (by decide)).mpr hk
  refine ⟨⟨address + ((k * pciefCmdSize : Nat) : U64), 0 + ((k * pciefCmdSize : Nat) : U64),
    pieceLen pciefCmdSize size.toNat k⟩, ?_, ?_, ?_, rfl⟩
  · rw [tgtSegs, pieces, List.getElem?_map, List.getElem?_range hlt]
    rfl
  · refine congrArg (address + ·) (BitVec.eq_of_toNat_eq ?_)
    rw [BitVec.natCast_eq_ofNat, BitVec.toNat_ofNat, BitVec.toNat_setWidth, BitVec.toNat_ofNat]
    omega
  · rw [zero_add, BitVec.natCast_eq_ofNat, BitVec.toNat_ofNat]
    omega

theorem pciefCmdSize32_pos : 0 < pciefCmdSize32.toNat := by decide

theorem length_tgtSegs (address : U64) (size : U32) :
    (tgtSegs address size).length = numPieces pciefCmdSize size.toNat := length_pieces ..

/-! ## the transfers -/

section Transfers

variable (ipc : Nat → IpcAnswer) (t : PciefTgt) (address : U64) (size : U32) {bar : PciefBar}

/-- **Round** `k` of a write: its command is that of segment `k`, with the data of the segment
in the data area, and the loop goes on behind it or ends with its failure. -/
theorem tgtWrRound_spec (data : Mem) (hbar : bar.HoldsMailbox) {k : Nat} {h : TgtHost}
    (hk : k * pciefCmdSize < size.toNat)
    (hi : TgtInv ipc t 0x4 Seg.len data bar size.toNat (tgtSegs address size) k h) :
    ∃ h', tgtWrRound ipc t.b0 address data (BitVec.ofNat 32 (k * pciefCmdSize))
        (BitVec.ofNat 32 (pieceLen pciefCmdSize size.toNat k)) h =
          some ((ipc k).result t 0x4, h') ∧
      if (ipc k).result t 0x4 = 0 then
        TgtInv ipc t 0x4 Seg.len data bar size.toNat (tgtSegs address size) (k + 1) h'
      else TgtIssued ipc t 0x4 Seg.len data bar (tgtSegs address size) (k + 1) h' := by
  have hsize := size.isLt
  obtain ⟨s, hseg, hsrc, hdst, hlen⟩ := tgtSegs_getElem? address size hk
  have hle : s.len ≤ pciefCmdSize := hlen ▸ Nat.min_le_left _ _
  have hlt : s.len < 2 ^ 32 := hle.trans_lt (by decide)
  have hptr : h.ptr = s.dst.toNat := by rw [hi.ptr, hdst, Nat.min_eq_right hk.le]
  have hword : (BitVec.ofNat 32 s.len).toNat = s.len := by
    rw [BitVec.toNat_ofNat, Nat.mod_eq_of_lt hlt]
  have hin : pciefDataAddr.toNat + s.len ≤ h.bar.barSize.toNat := by
    rw [hi.barSize]
    exact (Nat.add_le_add_left hle _).trans hbar
  rw [← hlen]
  obtain ⟨b, hwrite, ⟨hbsize, hbmem⟩, hbtouched⟩ :=
    pciefWrite_inside h.bar pciefDataAddr (BitVec.ofNat 32 s.len) (fun k => data (h.ptr + k))
      (by rwa [hword]) (by rw [hword]; exact hle.trans_lt (by decide))
  rw [hword] at hbmem hbtouched
  have hb : b.HoldsMailbox := by rwa [PciefBar.HoldsMailbox, hbsize, hi.barSize]
  obtain ⟨h', hrun, hsent⟩ := pciefSendTgtCmd_spec ipc t
    (tgtRwCmd 0x4 (BitVec.ofNat 32 s.len) s.src) { h with bar := b } hb
  have hissued := hi.issued.send { h with bar := b } hseg rfl
    (fun a ha => by
      simp only [hbtouched, List.mem_append] at ha
      refine ha.elim (hi.issued.touched a) fun hmem => .inr (.inl ?_)
      have := toNat_of_mem_rangeBytes _ hin hmem
      omega)
    (by
      show b.mem = _
      rw [hbmem, hi.mem, hptr, copy_from]) hsent
  have hcount : h.rings.length = k := hi.issued.count
  have hrun : tgtWrRound ipc t.b0 address data (BitVec.ofNat 32 (k * pciefCmdSize))
      (BitVec.ofNat 32 s.len) h =
        if (ipc k).result t 0x4 ≠ 0 then some (-1, h')
        else some (0, { h' with ptr := h'.ptr + s.len }) := by
    simp only [hcount] at hrun
    simp only [tgtWrRound, hwrite, Option.bind_eq_bind, Option.bind_some, ← hsrc, hrun, hword]
    rfl
  by_cases h0 : (ipc k).result t 0x4 = 0
  · refine ⟨_, by rw [hrun, if_neg (not_not_intro h0), h0], ?_⟩
    rw [if_pos h0]
    refine ⟨⟨hissued.count, hissued.each, hissued.touched⟩,
      hsent.size.trans (hbsize.trans hi.barSize), hsent.mem.trans (by rw [hcount]; rfl), ?_⟩
    show h'.ptr + s.len = _
    rw [hsent.ptr, hi.ptr, hlen, pieceLen, Nat.succ_mul]
    omega
  · refine ⟨h', by rw [hrun, if_pos h0, IpcAnswer.result_of_ne_zero h0], ?_⟩
    rw [if_neg h0]
    exact hissued

theorem tgtFilled_zero {ipc : Nat → IpcAnswer} {segs : List (Seg U64)} {data : Mem} :
    TgtFilled ipc segs data 0 data :=
  ⟨fun k _ hk => absurd hk (Nat.not_lt_zero k), fun _ _ => rfl⟩

/-- The data of the next segment are read to their place, and those of the segments before it
stay. -/
theorem TgtFilled.next {ipc : Nat → IpcAnswer} {segs : List (Seg U64)} {data data' : Mem} {n : Nat}
    {s : Seg U64} (hf : TgtFilled ipc segs data n data') (hseg : segs[n]? = some s)
    (hbefore : ∀ k s', k < n → segs[k]? = some s' → s'.dst.toNat + s'.len ≤ s.dst.toNat) :
    TgtFilled ipc segs data (n + 1)
      (copy (ipc n).mem pciefDataAddr.toNat data' s.dst.toNat s.len) where
  each k s' hk hs' := by
    obtain hlt | rfl := Nat.lt_succ_iff_lt_or_eq.mp hk
    · have hle := hbefore k s' hlt hs'
      rw [← hf.each k s' hlt hs']
      refine List.map_congr_left fun j hj => if_neg ?_
      have := List.mem_range.mp hj
      omega
    · obtain rfl : s = s' := Option.some.inj (hseg.symm.trans hs')
      rw [slice_copy]
  rest x hx := by
    rw [copy, if_neg (hx n s (Nat.lt_succ_self n) hseg)]
    exact hf.rest x fun k s' hk => hx k s' (Nat.lt_succ_of_lt hk)

/-- **Round** `k` of a read: its command is that of segment `k`, and a success leaves the bytes
of the answer in the caller's data. -/
theorem tgtRdRound_spec (data : Mem) (hbar : bar.HoldsMailbox) {k : Nat} {h : TgtHost} {data' : Mem}
    (hk : k * pciefCmdSize < size.toNat)
    (hi : TgtInv ipc t 0x3 (fun _ => 0) data bar size.toNat (tgtSegs address size) k h)
    (hf : TgtFilled ipc (tgtSegs address size) data k data') :
    ∃ h' data'', tgtRdRound ipc t.b0 address (BitVec.ofNat 32 (k * pciefCmdSize))
        (BitVec.ofNat 32 (pieceLen pciefCmdSize size.toNat k)) (h, data') =
          some ((ipc k).result t 0x3, h', data'') ∧
      if (ipc k).result t 0x3 = 0 then
        TgtInv ipc t 0x3 (fun _ => 0) data bar size.toNat (tgtSegs address size) (k + 1) h' ∧
          TgtFilled ipc (tgtSegs address size) data (k + 1) data''
      else TgtIssued ipc t 0x3 (fun _ => 0) data bar (tgtSegs address size) (k + 1) h' ∧
        TgtFilled ipc (tgtSegs address size) data k data'' := by
  have hsize := size.isLt
  obtain ⟨s, hseg, hsrc, hdst, hlen⟩ := tgtSegs_getElem? address size hk
  have hle : s.len ≤ pciefCmdSize := hlen ▸ Nat.min_le_left _ _
  have hlt : s.len < 2 ^ 32 := hle.trans_lt (by decide)
  have hptr : h.ptr = s.dst.toNat := by rw [hi.ptr, hdst, Nat.min_eq_right hk.le]
  have hword : (BitVec.ofNat 32 s.len).toNat = s.len := by
    rw [BitVec.toNat_ofNat, Nat.mod_eq_of_lt hlt]
  rw [← hlen]
  have hb : h.bar.HoldsMailbox := by rwa [PciefBar.HoldsMailbox, hi.barSize]
  obtain ⟨h', hrun, hsent⟩ := pciefSendTgtCmd_spec ipc t
    (tgtRwCmd 0x3 (BitVec.ofNat 32 s.len) s.src) h hb
  have hissued := hi.issued.send h hseg rfl hi.issued.touched (by rw [hi.mem, copy_zero]) hsent
  have hcount : h.rings.length = k := hi.issued.count
  have hop : (tgtRwCmd 0x3 (BitVec.ofNat 32 s.len) s.src).head.cmd = 0x3 := rfl
  rw [hcount, hop] at hrun
  by_cases h0 : (ipc k).result t 0x3 = 0
  · have hin : pciefDataAddr.toNat + s.len ≤ h'.bar.barSize.toNat := by
      rw [hsent.size, hi.barSize]
      exact (Nat.add_le_add_left hle _).trans hbar
    obtain ⟨r, hread, ⟨hrmem, hrdata⟩, hrsize, hrtouched⟩ :=
      pciefRead_inside h'.bar pciefDataAddr (BitVec.ofNat 32 s.len) (fun k => data' (h'.ptr + k))
        (by rwa [hword]) (by rw [hword]; exact hle.trans_lt (by decide))
    rw [hword] at hrdata hrtouched
    refine ⟨{ h' with bar := r.1, ptr := h'.ptr + s.len },
      copy (ipc k).mem pciefDataAddr.toNat data' s.dst.toNat s.len, ?_, ?_⟩
    · have hmem : h'.bar.mem = (ipc k).mem := hsent.mem.trans (by rw [hcount])
      rw [← copy_to, ← hptr, ← hsent.ptr, ← hmem, ← hrdata]
      simp only [tgtRdRound, ← hsrc, hrun, Option.bind_eq_bind, Option.bind_some, hread, h0,
        hword, ne_eq, not_true_eq_false, if_false]
      rfl
    · rw [if_pos h0]
      refine ⟨⟨⟨hissued.count, hissued.each, fun a ha => ?_⟩,
        hrsize.trans (hsent.size.trans hi.barSize),
        hrmem.trans (hsent.mem.trans (by rw [hcount]; rfl)), ?_⟩, hf.next hseg ?_⟩
      · rw [hrtouched, List.mem_append] at ha
        refine ha.elim (hissued.touched a) fun hmem => .inr (.inl ?_)
        have := toNat_of_mem_rangeBytes _ hin hmem
        omega
      · show h'.ptr + s.len = _
        rw [hsent.ptr, hi.ptr, hlen, pieceLen, Nat.succ_mul]
        omega
      · intro i s' hik hs'
        have hnext : (i + 1) * pciefCmdSize ≤ k * pciefCmdSize := Nat.mul_le_mul_right _ hik
        rw [Nat.succ_mul] at hnext
        obtain ⟨s0, hs0, -, hdst', hlen'⟩ := tgtSegs_getElem? address size (k := i) (by omega)
        obtain rfl : s0 = s' := Option.some.inj (hs0.symm.trans hs')
        have hle' : s0.len ≤ pciefCmdSize := hlen' ▸ Nat.min_le_left _ _
        omega
  · refine ⟨h', data', ?_, ?_⟩
    · simp only [tgtRdRound, ← hsrc, hrun, Option.bind_eq_bind, Option.bind_some]
      rw [if_pos h0, IpcAnswer.result_of_ne_zero h0]
      rfl
    · rw [if_neg h0]
      exact ⟨hissued, hf⟩

/-- A write ends: all commands of the tiling were issued and succeeded, or those up to the
first that failed. -/
theorem pciefTgtWr_ended (data : Mem) (hbar : bar.HoldsMailbox) :
    Ended (tgtSegs address size).length (fun k => (ipc k).result t 0x4)
      (TgtIssued ipc t 0x4 Seg.len data bar (tgtSegs address size))
      (fun k => TgtIssued ipc t 0x4 Seg.len data bar (tgtSegs address size) (k + 1))
      (TgtHost.pciefTgtWr ipc t.b0 address data size bar) := by
  have hend : Ended (numPieces pciefCmdSize size.toNat) (fun k => (ipc k).result t 0x4)
      (TgtInv ipc t 0x4 Seg.len data bar size.toNat (tgtSegs address size))
      (fun k => TgtIssued ipc t 0x4 Seg.len data bar (tgtSegs address size) (k + 1))
      (TgtHost.pciefTgtWr ipc t.b0 address data size bar) :=
    whilePieces_spec pciefCmdSize32_pos
      (fun _ _ hk hi => tgtWrRound_spec ipc t address size data hbar hk hi) (Nat.le_refl _)
      (tgtInv_zero size.toNat)
  rw [length_tgtSegs]
  exact hend.mono (fun _ _ hi => hi.issued) fun _ _ h => h

/-- A read ends in the same way, with the data of the commands that succeeded. -/
theorem pciefTgtRd_ended (data : Mem) (hbar : bar.HoldsMailbox) :
    Ended (tgtSegs address size).length (fun k => (ipc k).result t 0x3)
      (fun k s => TgtIssued ipc t 0x3 (fun _ => 0) data bar (tgtSegs address size) k s.1 ∧
        TgtFilled ipc (tgtSegs address size) data k s.2)
      (fun k s => TgtIssued ipc t 0x3 (fun _ => 0) data bar (tgtSegs address size) (k + 1) s.1 ∧
        TgtFilled ipc (tgtSegs address size) data k s.2)
      (TgtHost.pciefTgtRd ipc t.b0 address data size bar) := by
  have hend : Ended (numPieces pciefCmdSize size.toNat) (fun k => (ipc k).result t 0x3)
      (fun k s => TgtInv ipc t 0x3 (fun _ => 0) data bar size.toNat (tgtSegs address size) k s.1 ∧
        TgtFilled ipc (tgtSegs address size) data k s.2)
      (fun k s => TgtIssued ipc t 0x3 (fun _ => 0) data bar (tgtSegs address size) (k + 1) s.1 ∧
        TgtFilled ipc (tgtSegs address size) data k s.2)
      (TgtHost.pciefTgtRd ipc t.b0 address data size bar) :=
    whilePieces_spec pciefCmdSize32_pos
      (fun k s hk hi => by
        obtain ⟨h', data'', hround⟩ :=
          tgtRdRound_spec ipc t address size data hbar hk hi.1 hi.2
        exact ⟨(h', data''), hround⟩)
      (Nat.le_refl _) ⟨tgtInv_zero size.toNat, tgtFilled_zero⟩
  rw [length_tgtSegs]
  exact hend.mono (fun _ _ hi => ⟨hi.1.issued, hi.2⟩) fun _ _ h => h

end Transfers

/-! ## the commands of a call -/

/-- The command for a segment. -/
def tgtSegCmd (op : Byte) (s : Seg U64) : PciefTgtCmdRes :=
  tgtRwCmd op (BitVec.ofNat 32 s.len) s.src

/-- The commands of the segments from segment `k` on: that of the segment, and the others. -/
theorem map_tgtSegs_drop {address : U64} {size : U32} {k : Nat}
    (hk : k * pciefCmdSize < size.toNat) (op : Byte) :
    ((tgtSegs address size).drop k).map (tgtSegCmd op) =
      tgtRwCmd op (BitVec.ofNat 32 (pieceLen pciefCmdSize size.toNat k))
          (address + (BitVec.ofNat 32 (k * pciefCmdSize)).setWidth 64) ::
        ((tgtSegs address size).drop (k + 1)).map (tgtSegCmd op) := by
  obtain ⟨s, hs, hsrc, -, hlen⟩ := tgtSegs_getElem? address size hk
  obtain ⟨hlt, rfl⟩ := List.getElem?_eq_some_iff.mp hs
  rw [List.drop_eq_getElem_cons hlt, List.map_cons, tgtSegCmd, hsrc, hlen]

/-- The next position, when there is one. -/
theorem tgtPos_succ (n k : Nat) (hmore : (k + 1) * pciefCmdSize < n) :
    BitVec.ofNat 32 (k * pciefCmdSize) + BitVec.ofNat 32 (pieceLen pciefCmdSize n k) =
      BitVec.ofNat 32 ((k + 1) * pciefCmdSize) := by
  rw [Nat.succ_mul] at hmore ⊢
  rw [pieceLen, Nat.min_eq_left (by omega), BitVec.ofNat_add]

/-- No segment is left. -/
theorem tgtSegs_drop_end {address : U64} {size : U32} {k : Nat}
    (hk : size.toNat ≤ k * pciefCmdSize) : (tgtSegs address size).drop k = [] := by
  refine List.drop_eq_nil_of_le ?_
  rwa [length_tgtSegs, ← Nat.not_lt, lt_numPieces (by decide), Nat.not_lt]

theorem words_pciefTgtRd_from (address : U64) (size : U32) (fuel : Nat) {k : Nat} {pos : U32}
    (hpos : k * pciefCmdSize < size.toNat → pos = BitVec.ofNat 32 (k * pciefCmdSize))
    (hfuel : size.toNat ≤ k * pciefCmdSize + fuel) :
    (pciefTgtRd address pos (size.toNat - k * pciefCmdSize)).map TgtCmd.words =
      ((tgtSegs address size).drop k).map (tgtSegCmd 0x3) := by
  induction fuel generalizing k pos with
  | zero =>
      have hend : size.toNat ≤ k * pciefCmdSize := by omega
      rw [tgtSegs_drop_end hend, pciefTgtRd, dif_neg (by omega)]
      rfl
  | succ fuel ih =>
      by_cases hlt : k * pciefCmdSize < size.toNat
      · have hm : 0 < pciefCmdSize := by decide
        have hnext : (k + 1) * pciefCmdSize = k * pciefCmdSize + pciefCmdSize := Nat.succ_mul _ _
        have hlen : min (size.toNat - k * pciefCmdSize) pciefCmdSize =
            pieceLen pciefCmdSize size.toNat k := Nat.min_comm _ _
        have hrest := ih (k := k + 1) (tgtPos_succ size.toNat k) (by omega)
        rw [show size.toNat - (k + 1) * pciefCmdSize =
          size.toNat - k * pciefCmdSize - pieceLen pciefCmdSize size.toNat k by
            rw [pieceLen]; omega] at hrest
        rw [hpos hlt, pciefTgtRd, dif_pos (by omega), map_tgtSegs_drop hlt, List.map_cons]
        simp only [hlen]
        exact congrArg₂ List.cons rfl hrest
      · rw [tgtSegs_drop_end (Nat.not_lt.mp hlt), pciefTgtRd, dif_neg (by omega)]
        rfl

theorem words_pciefTgtWr_from (address : U64) {size : U32} {data : List Byte}
    (hdata : data.length = size.toNat) (fuel : Nat) {k : Nat} {pos : U32}
    (hpos : k * pciefCmdSize < size.toNat → pos = BitVec.ofNat 32 (k * pciefCmdSize))
    (hfuel : size.toNat ≤ k * pciefCmdSize + fuel) :
    (pciefTgtWr address pos (data.drop (k * pciefCmdSize))).map TgtCmd.words =
      ((tgtSegs address size).drop k).map (tgtSegCmd 0x4) := by
  induction fuel generalizing k pos with
  | zero =>
      have hend : size.toNat ≤ k * pciefCmdSize := by omega
      rw [tgtSegs_drop_end hend, pciefTgtWr, dif_neg (by rw [List.length_drop]; omega)]
      rfl
  | succ fuel ih =>
      by_cases hlt : k * pciefCmdSize < size.toNat
      · have hm : 0 < pciefCmdSize := by decide
        have hnext : (k + 1) * pciefCmdSize = k * pciefCmdSize + pciefCmdSize := Nat.succ_mul _ _
        have hlen : ((data.drop (k * pciefCmdSize)).take pciefCmdSize).length =
            pieceLen pciefCmdSize size.toNat k := by
          rw [List.length_take, List.length_drop, hdata, pieceLen]
        have hrest := ih (k := k + 1) (tgtPos_succ size.toNat k) (by omega)
        rw [hnext, ← List.drop_drop] at hrest
        rw [hpos hlt, pciefTgtWr, dif_pos (by rw [List.length_drop]; omega),
          map_tgtSegs_drop hlt, List.map_cons]
        simp only [hlen]
        refine congrArg₂ List.cons ?_ hrest
        rw [← hlen]
        rfl
      · rw [tgtSegs_drop_end (Nat.not_lt.mp hlt), pciefTgtWr,
          dif_neg (by rw [List.length_drop]; omega)]
        rfl

/-- The commands of a transfer are those that the threads of `MtEmu.Ipc.Mailbox` send. -/
theorem words_tgtCalls (address : U64) {size : U32} {data : List Byte}
    (hdata : data.length = size.toNat) :
    (TgtCall.rd address size).cmds.map TgtCmd.words =
        (tgtSegs address size).map (tgtSegCmd 0x3) ∧
      (TgtCall.wr address data).cmds.map TgtCmd.words =
        (tgtSegs address size).map (tgtSegCmd 0x4) := by
  have hrd := @words_pciefTgtRd_from address size size.toNat 0 0
    (fun _ => by rw [Nat.zero_mul]; rfl) (by omega)
  have hwr := @words_pciefTgtWr_from address size data hdata size.toNat 0 0
    (fun _ => by rw [Nat.zero_mul]; rfl) (by omega)
  rw [Nat.zero_mul] at hrd hwr
  exact ⟨hrd, hwr⟩

/-- A call for another target fails before its first command, unless there is nothing to
transfer. -/
theorem tgt_refused (ipc : Nat → IpcAnswer) {target : Byte} (htarget : tgtAddrs target = none)
    (address : U64) {size : U32} (hne : size ≠ 0) (data : Mem) (bar : PciefBar) :
    (∃ h, TgtHost.pciefTgtWr ipc target address data size bar = some (-1, h) ∧ h.rings = []) ∧
      TgtHost.pciefTgtRd ipc target address data size bar = some (-1, ⟨bar, [], 0⟩, data) := by
  have hpos : 0 < numPieces pciefCmdSize size.toNat :=
    (lt_numPieces (by decide)).mpr (by simpa using BitVec.toNat_pos_of_ne_zero hne)
  have hwr : Ended (numPieces pciefCmdSize size.toNat) (fun _ => -1)
      (fun _ h => h = (⟨bar, [], 0⟩ : TgtHost)) (fun _ h => h.rings = [])
      (TgtHost.pciefTgtWr ipc target address data size bar) :=
    whilePieces_spec pciefCmdSize32_pos
      (fun k h _ hi => by
        obtain ⟨e, b, hwrite⟩ := pciefWrite_ends h.bar pciefDataAddr
          (BitVec.ofNat 32 (pieceLen pciefCmdSize32.toNat size.toNat k)) fun k => data (h.ptr + k)
        refine ⟨{ h with bar := b }, ?_, ?_⟩
        · simp only [tgtWrRound, hwrite, Option.bind_eq_bind, Option.bind_some,
            pciefSendTgtCmd_unknown ipc htarget]
          rfl
        · rw [hi]
          rfl)
      (Nat.le_refl _) rfl
  have hrd : Ended (numPieces pciefCmdSize size.toNat) (fun _ => -1)
      (fun _ s => s = ((⟨bar, [], 0⟩, data) : TgtHost × Mem))
      (fun _ s => s = ((⟨bar, [], 0⟩, data) : TgtHost × Mem))
      (TgtHost.pciefTgtRd ipc target address data size bar) :=
    whilePieces_spec pciefCmdSize32_pos
      (fun k s _ hi => ⟨s, by
        simp only [tgtRdRound, Option.bind_eq_bind, pciefSendTgtCmd_unknown ipc htarget]
        rfl, hi⟩)
      (Nat.le_refl _) rfl
  constructor
  · obtain ⟨s, hrun, hs⟩ := hwr.fails hpos (by decide)
    exact ⟨s, hrun, hs⟩
  · obtain ⟨s, hrun, rfl⟩ := hrd.fails hpos (by decide)
    exact hrun

/-- **Split**: `pcief_tgt_wr` and `pcief_tgt_rd` issue the commands of a tiling, up to the
first that fails, with the data that belong to them; they return -1 exactly when one does. -/
theorem tgt_splits (address : U64) (size : U32) {bar : PciefBar} (hbar : bar.HoldsMailbox) :
    ∃ segs, TgtTiles address size segs ∧ (∀ ipc t data,
      Ended segs.length (fun k => (ipc k).result t 0x4)
        (TgtIssued ipc t 0x4 Seg.len data bar segs)
        (fun k => TgtIssued ipc t 0x4 Seg.len data bar segs (k + 1))
        (TgtHost.pciefTgtWr ipc t.b0 address data size bar) ∧
      Ended segs.length (fun k => (ipc k).result t 0x3)
        (fun k s => TgtIssued ipc t 0x3 (fun _ => 0) data bar segs k s.1 ∧
          TgtFilled ipc segs data k s.2)
        (fun k s => TgtIssued ipc t 0x3 (fun _ => 0) data bar segs (k + 1) s.1 ∧
          TgtFilled ipc segs data k s.2)
        (TgtHost.pciefTgtRd ipc t.b0 address data size bar)) ∧
      ∀ ipc target data, tgtAddrs target = none → size ≠ 0 →
        (∃ h, TgtHost.pciefTgtWr ipc target address data size bar = some (-1, h) ∧ h.rings = []) ∧
          TgtHost.pciefTgtRd ipc target address data size bar = some (-1, ⟨bar, [], 0⟩, data) :=
  ⟨_, tgtTiles_tgtSegs address size,
    fun ipc t data => ⟨pciefTgtWr_ended ipc t address size data hbar,
      pciefTgtRd_ended ipc t address size data hbar⟩,
    fun ipc _ data htarget hne => tgt_refused ipc htarget address hne data bar⟩

/-- Two bytes more than `PCIEF_CMD_SIZE` to the last addresses: the second command is at 0. -/
theorem tgt_splits_wrap :
    let bar : PciefBar := ⟨0x2000000, fun _ => 0, []⟩
    ∃ segs, TgtTiles 0xfffffffffffff800 0x802 segs ∧ (∀ ipc t data,
      Ended segs.length (fun k => (ipc k).result t 0x4)
        (TgtIssued ipc t 0x4 Seg.len data bar segs)
        (fun k => TgtIssued ipc t 0x4 Seg.len data bar segs (k + 1))
        (TgtHost.pciefTgtWr ipc t.b0 0xfffffffffffff800 data 0x802 bar) ∧
      Ended segs.length (fun k => (ipc k).result t 0x3)
        (fun k s => TgtIssued ipc t 0x3 (fun _ => 0) data bar segs k s.1 ∧
          TgtFilled ipc segs data k s.2)
        (fun k s => TgtIssued ipc t 0x3 (fun _ => 0) data bar segs (k + 1) s.1 ∧
          TgtFilled ipc segs data k s.2)
        (TgtHost.pciefTgtRd ipc t.b0 0xfffffffffffff800 data 0x802 bar)) ∧
      ∀ ipc target data, tgtAddrs target = none → (0x802 : U32) ≠ 0 →
        (∃ h, TgtHost.pciefTgtWr ipc target 0xfffffffffffff800 data 0x802 bar = some (-1, h) ∧
          h.rings = []) ∧
          TgtHost.pciefTgtRd ipc target 0xfffffffffffff800 data 0x802 bar =
            some (-1, ⟨bar, [], 0⟩, data) :=
  tgt_splits 0xfffffffffffff800 0x802 (by unfold PciefBar.HoldsMailbox; decide)

end MtEmu
