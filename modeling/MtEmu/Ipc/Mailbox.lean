import Mathlib.Logic.Function.Basic
import MtEmu.Lib.Piecewise
import MtEmu.Ipc.Response

/-!
# MtEmu.Ipc.Mailbox

Target commands of the user library (`mt_pcie_f.c`): `pcief_tgt_rd`,
`pcief_tgt_wr`, `pcief_tgt_sreg_u32` and `pcief_tgt_greg_u32`.

A call is a list of commands.  Each stores its data and the four words of
`struct pcief_tgt_cmd_res` into the mailbox, makes the ioctl
(`MtEmu.Ipc.Response`), loads the four words of the response, compares the
tag and the command, and loads the data that was read.  The target executes
the command that it finds in the mailbox when it takes its doorbell, writes
the response, and raises the interrupt.

Any number of threads make calls on one target, and every load and every
store is a step of its own.  `sent` and `execs` are bookkeeping: the commands
whose doorbell was rung, and what the target executed.
-/

namespace MtEmu

open Machine Piecewise

abbrev Byte := BitVec 8

/-! ## commands -/

/-- `head_info`. -/
structure TgtHead where
  cmd : Byte
  tag : Byte
  other : BitVec 16
  para0 : U32
  deriving DecidableEq

/-- `struct pcief_tgt_cmd_res`; `para1` is also `addr`. -/
structure PciefTgtCmdRes where
  head : TgtHead
  para1 : U64
  para2 : U64
  para3 : U64
  deriving DecidableEq

/-- Its words. -/
inductive TgtWord where
  | head
  | para1
  | para2
  | para3
  deriving DecidableEq

/-- All of them, in order. -/
def tgtWords : List TgtWord := [.head, .para1, .para2, .para3]

namespace PciefTgtCmdRes

/-- After `memset`. -/
def zero : PciefTgtCmdRes := ⟨⟨0, 0, 0, 0⟩, 0, 0, 0⟩

/-- Copy one word. -/
def copyWord (src dst : PciefTgtCmdRes) : TgtWord → PciefTgtCmdRes
  | .head => { dst with head := src.head }
  | .para1 => { dst with para1 := src.para1 }
  | .para2 => { dst with para2 := src.para2 }
  | .para3 => { dst with para3 := src.para3 }

theorem copyWord_all (src dst : PciefTgtCmdRes) : tgtWords.foldl src.copyWord dst = src := rfl

end PciefTgtCmdRes

/-- `PCIEF_CMD_TAG`. -/
def pciefCmdTag : Byte := 0x55

/-- `PCIEF_RES_TAG`. -/
def pciefResTag : Byte := 0xaa

/-- `PCIEF_CMD_SIZE`. -/
def pciefCmdSize : Nat := 0x800

/-- A command: `PCIEF_CMD_RD32`, `_WR32`, `_RD` or `_WR`. -/
inductive TgtCmd where
  | rd32 (addr : U64)
  | wr32 (addr : U64) (val : U32)
  | rd (addr : U64) (len : { n : Nat // n ≤ pciefCmdSize })
  | wr (addr : U64) (data : { d : List Byte // d.length ≤ pciefCmdSize })
  deriving DecidableEq

namespace TgtCmd

/-- The bytes that it stores into the data area. -/
def out : TgtCmd → List Byte
  | .wr _ data => data.1
  | _ => []

/-- How many bytes it loads from the data area. -/
def inLen : TgtCmd → Nat
  | .rd _ len => len.1
  | _ => 0

/-- `cmd`, as the four functions fill it in. -/
def words : TgtCmd → PciefTgtCmdRes
  | .rd32 addr => ⟨⟨0x1, pciefCmdTag, 0, 0⟩, addr, 0, 0⟩
  | .wr32 addr val => ⟨⟨0x2, pciefCmdTag, 0, val⟩, addr, 0, 0⟩
  | .rd addr len => ⟨⟨0x3, pciefCmdTag, 0, BitVec.ofNat 32 len.1⟩, addr, 0, 0⟩
  | .wr addr data => ⟨⟨0x4, pciefCmdTag, 0, BitVec.ofNat 32 data.1.length⟩, addr, 0, 0⟩

end TgtCmd

/-- `pcief_tgt_rd` from `pos` on, with `size` bytes left. -/
def pciefTgtRd (address : U64) (pos : U32) (size : Nat) : List TgtCmd :=
  if _h : 0 < size then
    let len : { n : Nat // n ≤ pciefCmdSize } := ⟨min size pciefCmdSize, Nat.min_le_right _ _⟩
    .rd (address + pos.setWidth 64) len ::
      pciefTgtRd address (pos + BitVec.ofNat 32 len.1) (size - len.1)
  else []
termination_by size
decreasing_by
  show size - min size pciefCmdSize < size
  unfold pciefCmdSize
  omega

/-- `pcief_tgt_wr` from `pos` on, with `data` left. -/
def pciefTgtWr (address : U64) (pos : U32) (data : List Byte) : List TgtCmd :=
  if _h : 0 < data.length then
    let chunk : { d : List Byte // d.length ≤ pciefCmdSize } :=
      ⟨data.take pciefCmdSize, by simp⟩
    .wr (address + pos.setWidth 64) chunk ::
      pciefTgtWr address (pos + BitVec.ofNat 32 chunk.1.length) (data.drop pciefCmdSize)
  else []
termination_by data.length
decreasing_by
  simp only [List.length_drop, pciefCmdSize]
  omega

/-- The commands of a write carry all of its data, in order. -/
theorem out_pciefTgtWr (address : U64) (pos : U32) (data : List Byte) :
    (pciefTgtWr address pos data).flatMap TgtCmd.out = data := by
  fun_induction pciefTgtWr address pos data with
  | case1 pos data hpos chunk ih =>
      rw [List.flatMap_cons, ih]
      exact List.take_append_drop pciefCmdSize data
  | case2 pos data hempty =>
      have hnil : data = [] := by simpa using hempty
      simp [hnil]

/-- Those of a read ask for as many bytes as it has. -/
theorem inLen_pciefTgtRd (address : U64) (pos : U32) (size : Nat) :
    ((pciefTgtRd address pos size).map TgtCmd.inLen).sum = size := by
  fun_induction pciefTgtRd address pos size with
  | case1 pos size hpos len ih =>
      have hle : len.1 ≤ size := Nat.min_le_left _ _
      simp [TgtCmd.inLen, ih]
      omega
  | case2 pos size hempty =>
      simp
      omega

/-- A call of the library. -/
inductive TgtCall where
  | rd (address : U64) (size : U32)
  | wr (address : U64) (data : List Byte)
  | sregU32 (address : U64) (val : U32)
  | gregU32 (address : U64)

/-- The commands that it sends if none of them fails. -/
def TgtCall.cmds : TgtCall → List TgtCmd
  | .rd address size => pciefTgtRd address 0 size.toNat
  | .wr address data => pciefTgtWr address 0 data
  | .sregU32 address val => [.wr32 address val]
  | .gregU32 address => [.rd32 address]

/-! ## what a command does to the mailbox -/

/-- The accesses of `pcief_write` and `pcief_read`: eight bytes at a time, and
then 4, 2 and 1 for what is left. -/
def pciefPieces (len : Nat) : List Piece :=
  let i := len / 8 * 8
  let i4 := if i < len / 4 * 4 then i + 4 else i
  let i2 := if i4 < len / 2 * 2 then i4 + 2 else i4
  (List.range (len / 8)).map (fun k => ⟨8 * k, 8⟩) ++
    (if i < len / 4 * 4 then [⟨i, 4⟩] else []) ++
    (if i4 < len / 2 * 2 then [⟨i4, 2⟩] else []) ++ (if i2 < len then [⟨i2, 1⟩] else [])

/-- They leave no byte out. -/
theorem covers_pciefPieces (len : Nat) : Covers (pciefPieces len) len := by
  intro j hj
  have h4 : (if len / 8 * 8 < len / 4 * 4 then len / 8 * 8 + 4 else len / 8 * 8) = len / 4 * 4 := by
    split <;> omega
  have h2 : (if len / 4 * 4 < len / 2 * 2 then len / 4 * 4 + 2 else len / 4 * 4) = len / 2 * 2 := by
    split <;> omega
  simp only [pciefPieces, h4, h2, List.mem_append, List.mem_map, List.mem_range]
  by_cases hj8 : j < len / 8 * 8
  · exact ⟨⟨8 * (j / 8), 8⟩, .inl (.inl (.inl ⟨j / 8, by omega, rfl⟩)),
      by dsimp only [Piece.Has]; omega⟩
  by_cases hj4 : j < len / 4 * 4
  · have hlt : len / 8 * 8 < len / 4 * 4 := by omega
    exact ⟨⟨len / 8 * 8, 4⟩, .inl (.inl (.inr (by simp [hlt]))), by dsimp only [Piece.Has]; omega⟩
  by_cases hj2 : j < len / 2 * 2
  · have hlt : len / 4 * 4 < len / 2 * 2 := by omega
    exact ⟨⟨len / 4 * 4, 2⟩, .inl (.inr (by simp [hlt])), by dsimp only [Piece.Has]; omega⟩
  · have hlt : len / 2 * 2 < len := by omega
    exact ⟨⟨len / 2 * 2, 1⟩, .inr (by simp [hlt]), by dsimp only [Piece.Has]; omega⟩

/-- A step of a command, as far as other parties see it.  The ioctl is called
and comes back. -/
inductive MboxOp where
  | storeData (p : Piece)
  | storeCmd (w : TgtWord)
  | ioctl
  | join
  | loadRes (w : TgtWord)
  | check
  | loadData (p : Piece)
  deriving DecidableEq

/-- The end of `pcief_send_tgt_cmd`, and the loads of `pcief_tgt_rd` behind
it. -/
def TgtCmd.loads (cmd : TgtCmd) : List MboxOp :=
  tgtWords.map .loadRes ++ .check :: (pciefPieces cmd.inLen).map .loadData

/-- The steps of a command. -/
def TgtCmd.ops (cmd : TgtCmd) : List MboxOp :=
  (pciefPieces cmd.out.length).map .storeData ++ tgtWords.map .storeCmd ++
    .ioctl :: .join :: cmd.loads

/-! ## the target -/

/-- A command that the target executes: what it finds in the mailbox, and the
memory in front of it. -/
structure TgtExec where
  cmd : PciefTgtCmdRes
  data : Nat → Byte
  mem : U64 → Byte

namespace TgtExec

/-- The four bytes at an address. -/
def read32 (mem : U64 → Byte) (addr : U64) : U32 :=
  mem (addr + 3) ++ mem (addr + 2) ++ mem (addr + 1) ++ mem addr

/-- The memory behind it. -/
def memAfter (e : TgtExec) : U64 → Byte := fun a =>
  let k := (a - e.cmd.para1).toNat
  if e.cmd.head.cmd = 0x2 then
    if k < 4 then (e.cmd.head.para0 >>> (8 * k)).setWidth 8 else e.mem a
  else if e.cmd.head.cmd = 0x4 then
    if k < e.cmd.head.para0.toNat then e.data k else e.mem a
  else e.mem a

/-- The data area behind it. -/
def dataAfter (e : TgtExec) : Nat → Byte := fun j =>
  if e.cmd.head.cmd = 0x3 ∧ j < e.cmd.head.para0.toNat then e.mem (e.cmd.para1 + BitVec.ofNat 64 j)
  else e.data j

/-- The response. -/
def res (e : TgtExec) : PciefTgtCmdRes :=
  ⟨⟨e.cmd.head.cmd, pciefResTag, 0, if e.cmd.head.cmd = 0x1 then read32 e.mem e.cmd.para1 else 0⟩,
    0, 0, 0⟩

/-- It is the execution of this command, with its own words and its own data. -/
def Of (e : TgtExec) (cmd : TgtCmd) : Prop :=
  e.cmd = cmd.words ∧ ∀ j < cmd.out.length, e.data j = cmd.out.getD j 0

end TgtExec

/-! ## threads and the mailbox -/

/-- Where a thread is: in no call, between two commands of one, or inside a
command, with the steps that are left of it. -/
inductive MboxPc where
  | idle
  | next
  | run (cmd : TgtCmd) (ops : List MboxOp)
  deriving DecidableEq

/-- A command that has ended well: the value and the data it got, and its
number among the commands sent. -/
structure TgtRecord where
  cmd : TgtCmd
  val : U32
  data : Nat → Byte
  idx : Nat

/-- A thread: its call, the commands of it that are left, the locals `res` and
the buffer, the number of the current command, the commands that have ended
well, of this call from `base` on, and what the last call returned. -/
structure TgtThread where
  pc : MboxPc
  call : List TgtCmd
  todo : List TgtCmd
  res : PciefTgtCmdRes
  buf : Nat → Byte
  idx : Nat
  finished : List TgtRecord
  base : Nat
  ret : Option Int

/-- The mailbox, the target's memory and whether its response is written, the
threads, and who is inside a command. -/
structure MboxSys where
  ipc : IpcSys
  cmd : PciefTgtCmdRes
  res : PciefTgtCmdRes
  data : Nat → Byte
  mem : U64 → Byte
  resPut : Bool
  th : Nat → TgtThread
  inside : List Nat
  sent : List (Nat × TgtCmd)
  execs : List TgtExec

/-- What can happen. -/
inductive MboxAct where
  | start (c : Nat) (call : TgtCall)
  | begin (c : Nat)
  | op (c : Nat)
  | endCmd (c : Nat)
  | ret (c : Nat)
  | ipc (a : IpcAct)
  | take
  | putRes
  | respond

/-- A step inside the ioctl, or of `MT_IOCTL_WAIT_INT` or `MT_IOCTL_IRQ_INIT`. -/
def IpcAct.Inside : IpcAct → Prop
  | .call _ _ | .otherInt _ | .take _ | .respond _ => False
  | _ => True

instance : (a : IpcAct) → Decidable a.Inside
  | .call _ _ | .otherInt _ | .take _ | .respond _ => .isFalse id
  | .switch _ | .lock _ | .reinit _ | .setSgi _ | .wake _ _ | .timeout _ | .unlock _ | .waitInt _
  | .irqInit _ _ _ | .irqOp => .isTrue trivial

/-- `b0` for a target. -/
def PciefTgt.b0 : PciefTgt → BitVec 8
  | .dsp => 0
  | .fec => 1
  | .smc => 2

namespace MboxSys

/-- Change a thread. -/
def setTh (s : MboxSys) (c : Nat) (th : TgtThread) : MboxSys :=
  { s with th := Function.update s.th c th }

@[simp] theorem setTh_self (s : MboxSys) (c : Nat) (th : TgtThread) : (s.setTh c th).th c = th := by
  simp [setTh]

@[simp] theorem setTh_res (s : MboxSys) (c : Nat) (th : TgtThread) :
    (s.setTh c th).res = s.res := rfl

@[simp] theorem setTh_data (s : MboxSys) (c : Nat) (th : TgtThread) :
    (s.setTh c th).data = s.data := rfl

@[simp] theorem setTh_of_ne {c d : Nat} (hd : d ≠ c) (s : MboxSys) (th : TgtThread) :
    (s.setTh c th).th d = s.th d := by
  simp [setTh, hd]

/-- The call of a thread fails: it returns -1. -/
def fail (s : MboxSys) (c : Nat) : MboxSys :=
  { s.setTh c { s.th c with pc := .idle, ret := some (-1) } with inside := s.inside.erase c }

/-- The thread whose doorbell the step rings. -/
def rings (mbox : Bool) (t : PciefTgt) : IpcAct → Option Nat
  | .switch c => if mbox = true ∧ t ≠ .dsp then some c else none
  | .setSgi c => if mbox then none else some c
  | _ => none

/-- The command of a thread is noted as sent. -/
def noteSent (s : MboxSys) (c : Nat) : MboxSys :=
  match (s.th c).pc with
  | .run cmd _ => { s.setTh c { s.th c with idx := s.sent.length } with sent := s.sent ++ [(c, cmd)] }
  | _ => s

/-- A thread takes a step inside a command; `ops` are left behind it. -/
def doOp (mbox : Bool) (t : PciefTgt) (s : MboxSys) (c : Nat) (cmd : TgtCmd) (ops : List MboxOp) :
    MboxOp → Option MboxSys
  | .storeData p =>
      some { s.setTh c { s.th c with pc := .run cmd ops } with
        data := put (fun j => cmd.out.getD j 0) s.data p }
  | .storeCmd w =>
      some { s.setTh c { s.th c with pc := .run cmd ops } with cmd := cmd.words.copyWord s.cmd w }
  | .ioctl =>
      (s.ipc.step mbox (.call c t.b0)).map fun ipc =>
        { s.setTh c { s.th c with pc := .run cmd ops } with ipc := ipc }
  | .join =>
      match s.ipc.pc c with
      | .returned true => some (s.setTh c { s.th c with pc := .run cmd ops })
      | .returned false => some (s.fail c)
      | _ => none
  | .loadRes w =>
      some (s.setTh c { s.th c with pc := .run cmd ops, res := s.res.copyWord (s.th c).res w })
  | .check =>
      some (if (s.th c).res.head.tag ≠ pciefResTag ∨ (s.th c).res.head.cmd ≠ cmd.words.head.cmd then
        s.fail c
      else s.setTh c { s.th c with pc := .run cmd ops })
  | .loadData p =>
      some (s.setTh c { s.th c with pc := .run cmd ops, buf := put s.data (s.th c).buf p })

/-- One step of the threads on target `t` and of the target, in a build with
`PCIE_USE_MBOX` or without it. -/
def step (mbox : Bool) (t : PciefTgt) (s : MboxSys) : MboxAct → Option MboxSys
  | .start c call =>
      if (s.th c).pc = .idle then
        some (s.setTh c { s.th c with
          pc := .next
          call := call.cmds
          todo := call.cmds
          base := (s.th c).finished.length
          ret := none })
      else none
  | .begin c =>
      match (s.th c).pc, (s.th c).todo with
      | .next, cmd :: todo =>
          some { s.setTh c { s.th c with pc := .run cmd cmd.ops, todo := todo, res := .zero } with
            inside := c :: s.inside }
      | _, _ => none
  | .op c =>
      match (s.th c).pc with
      | .run cmd (op :: ops) => doOp mbox t s c cmd ops op
      | _ => none
  | .endCmd c =>
      match (s.th c).pc with
      | .run cmd [] =>
          let th := s.th c
          some { s.setTh c { th with
              pc := .next, finished := th.finished ++ [⟨cmd, th.res.head.para0, th.buf, th.idx⟩] } with
            inside := s.inside.erase c }
      | _ => none
  | .ret c =>
      match (s.th c).pc, (s.th c).todo with
      | .next, [] => some (s.setTh c { s.th c with pc := .idle, ret := some 0 })
      | _, _ => none
  | .ipc a =>
      if a.Inside then
        (s.ipc.step mbox a).map fun ipc =>
          match rings mbox t a with
          | some c => { s with ipc := ipc }.noteSent c
          | none => { s with ipc := ipc }
      else none
  | .take =>
      (s.ipc.step mbox (.take t)).map fun ipc =>
        let e : TgtExec := ⟨s.cmd, s.data, s.mem⟩
        { s with
          ipc := ipc, data := e.dataAfter, mem := e.memAfter, resPut := false, execs := s.execs ++ [e] }
  | .putRes =>
      match s.execs.getLast? with
      | some e => if s.ipc.serving t = true then some { s with res := e.res, resPut := true } else none
      | none => none
  | .respond =>
      if s.resPut = true then
        (s.ipc.step mbox (.respond t)).map fun ipc => { s with ipc := ipc }
      else none

/-- A thread that has made no call. -/
def newThread : TgtThread := ⟨.idle, [], [], .zero, fun _ => 0, 0, [], 0, none⟩

/-- Nothing has been sent; the mailbox and the memory hold anything, and the device is in any
state. -/
def Init (s : MboxSys) : Prop :=
  ∃ irq cmd res data mem,
    s = ⟨.init irq, cmd, res, data, mem, false, fun _ => newThread, [], [], []⟩

end MboxSys

end MtEmu
