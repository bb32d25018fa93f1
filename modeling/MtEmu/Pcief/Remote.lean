import MtEmu.Pcief.Tgt

/-!
# MtEmu.Pcief.Remote

The memory of a target, as the library shows it: `pcief_tgt_wr`, `pcief_tgt_rd`,
`pcief_tgt_sreg_u32` and `pcief_tgt_greg_u32` (`test/lib/mt_pcie_f.c`), one call after the
other.

A target serves a command by executing what it finds in the mailbox (`IpcAnswer.Serves`, after
`TgtExec`).  As long as it does, the calls are the accesses of one memory with 64-bit addresses:
`TgtCall.onMem` says what each of them is there, and `tgt_session` that a whole session is the
same accesses one after the other.

That a target serves is a hypothesis about each command's answer, in the words of the
mailbox.  It is not an empty one: for every list of calls there is a target that serves them
(`exists_session`), written down as a program at the end.
-/

namespace MtEmu

open Bytes Copy Loop

/-! ## the memory of a target -/

/-- Bytes by 64-bit address: the whole memory of a target, as its commands reach it. -/
abbrev TgtMem := U64 → Byte

/-- The memory with `n` bytes of `data` at an address.  Addresses wrap. -/
def TgtMem.put (mem : TgtMem) (address : U64) (n : Nat) (data : Mem) : TgtMem := fun a =>
  if (a - address).toNat < n then data (a - address).toNat else mem a

/-- The bytes from an address on. -/
def TgtMem.get (mem : TgtMem) (address : U64) : Mem := fun k => mem (address + BitVec.ofNat 64 k)

@[simp] theorem TgtMem.put_zero (mem : TgtMem) (address : U64) (data : Mem) :
    mem.put address 0 data = mem := by
  funext a
  exact if_neg (Nat.not_lt_zero _)

/-- Only the bytes that are put matter, not what is behind them in the buffer. -/
theorem TgtMem.put_congr {mem : TgtMem} {address : U64} {n : Nat} {data data' : Mem}
    (h : ∀ k < n, data k = data' k) : mem.put address n data = mem.put address n data' := by
  funext a
  unfold put
  split
  · next hlt => exact h _ hlt
  · rfl

/-- What is put behind what was put is one access of both lengths: a transfer may be cut
anywhere. -/
theorem TgtMem.put_add (mem : TgtMem) (address : U64) {m n : Nat} (data : Mem)
    (hfit : m + n < 2 ^ 64) :
    (mem.put address m data).put (address + BitVec.ofNat 64 m) n (fun k => data (m + k)) =
      mem.put address (m + n) data := by
  funext a
  have hm : (BitVec.ofNat 64 m).toNat = m := by
    rw [BitVec.toNat_ofNat]
    omega
  -- the places behind `m` are those of the second range
  have hsub : (a - (address + BitVec.ofNat 64 m)).toNat =
      if m ≤ (a - address).toNat then (a - address).toNat - m
      else 2 ^ 64 - m + (a - address).toNat := by
    have hlt := (a - address).isLt
    rw [sub_add_eq_sub_sub, BitVec.toNat_sub, hm]
    split <;> omega
  unfold put
  rw [hsub]
  by_cases hlow : m ≤ (a - address).toNat
  · rw [if_pos hlow]
    by_cases hin : (a - address).toNat - m < n
    · rw [if_pos hin, if_pos (by omega)]
      exact congrArg data (Nat.add_sub_cancel' hlow)
    · rw [if_neg hin, if_neg (by omega), if_neg (by omega)]
  · rw [if_neg hlow, if_neg (by omega)]
    by_cases hin : (a - address).toNat < m
    · rw [if_pos hin, if_pos (by omega)]
    · exact absurd (Nat.lt_of_not_le hlow) hin

/-! ## the calls, on a memory -/

/-- What a call gives its caller beside the result: nothing, the bytes of a buffer, or a
word. -/
inductive TgtReply where
  | nothing
  | bytes (data : List Byte)
  | word (val : U32)
  deriving DecidableEq

/-- The bytes of a list. -/
def listMem (data : List Byte) : Mem := fun k => data.getD k 0

/-- The bytes of a word, the low one first. -/
def wordMem (val : U32) : Mem := fun k => (val >>> (8 * k)).setWidth 8

/-- A call as an access to a memory: what it gives back, and what it leaves.  This is the
abstract meaning of the library's four functions; nothing in it is taken from their code. -/
def TgtCall.onMem (mem : TgtMem) : TgtCall → TgtReply × TgtMem
  | .rd address size => (.bytes (slice (mem.get address) 0 size.toNat), mem)
  | .wr address data => (.nothing, mem.put address data.length (listMem data))
  | .sregU32 address val => (.nothing, mem.put address 4 (wordMem val))
  | .gregU32 address => (.word (TgtExec.read32 mem address), mem)

/-- Calls one after the other on one memory, with what each of them gives back. -/
def TgtMem.runCalls (mem : TgtMem) : List TgtCall → List TgtReply × TgtMem
  | [] => ([], mem)
  | call :: calls =>
      let (reply, mem) := call.onMem mem
      let (replies, mem) := mem.runCalls calls
      (reply :: replies, mem)

/-- The size of a call is a `uint32_t`. -/
def TgtCall.Fits : TgtCall → Prop
  | .wr _ data => data.length < 2 ^ 32
  | _ => True

/-! ## the calls of the library -/

/-- `pcief_tgt_sreg_u32`: one command, with the value in its words and no data area. -/
def TgtHost.pciefTgtSregU32 (ipc : Nat → IpcAnswer) (target : Byte) (address : U64) (val : U32)
    (bar : PciefBar) : Option (Int × TgtHost) :=
  pciefSendTgtCmd ipc target (TgtCmd.wr32 address val).words ⟨bar, [], 0⟩

/-- `pcief_tgt_greg_u32`, with what it leaves in `*val`, `val` before. -/
def TgtHost.pciefTgtGregU32 (ipc : Nat → IpcAnswer) (target : Byte) (address : U64) (val : U32)
    (bar : PciefBar) : Option (Int × TgtHost × U32) := do
  let (ret, h, res) ← pciefSendTgtCmdRes ipc target (TgtCmd.rd32 address).words ⟨bar, [], 0⟩
  if ret ≠ 0 then return (-1, h, val)
  return (0, h, res.head.para0)

/-- A call of the library, its buffers as `buf` and `val` before; what it gives back is read
out of them afterwards. -/
def TgtHost.call (ipc : Nat → IpcAnswer) (target : Byte) (buf : Mem) (val : U32)
    (bar : PciefBar) : TgtCall → Option (Int × TgtHost × TgtReply)
  | .rd address size => do
      let (ret, h, data) ← pciefTgtRd ipc target address buf size bar
      return (ret, h, .bytes (slice data 0 size.toNat))
  | .wr address data => do
      let (ret, h) ←
        pciefTgtWr ipc target address (listMem data) (BitVec.ofNat 32 data.length) bar
      return (ret, h, .nothing)
  | .sregU32 address val => do
      let (ret, h) ← pciefTgtSregU32 ipc target address val bar
      return (ret, h, .nothing)
  | .gregU32 address => do
      let (ret, h, val) ← pciefTgtGregU32 ipc target address val bar
      return (ret, h, .word val)

/-! ## a target that serves -/

/-- What a target finds in BAR 0 in front of a command: the command in its mailbox, and the
data area. -/
def TgtExec.found (t : PciefTgt) (bar : Mem) (mem : TgtMem) : TgtExec :=
  ⟨PciefTgtCmdRes.ofMem bar t.cmdAddr.toNat, fun j => bar (pciefDataAddr.toNat + j), mem⟩

/-- The target has served the command: the ioctl says so, the response and the data of the
execution are in the mailbox, and the BAR around it is as before. -/
structure IpcAnswer.Serves (t : PciefTgt) (e : TgtExec) (bar : Mem) (a : IpcAnswer) : Prop where
  done : a.done = 1
  res : PciefTgtCmdRes.ofMem a.mem t.resAddr.toNat = e.res
  data : ∀ j < pciefCmdSize, a.mem (pciefDataAddr.toNat + j) = e.dataAfter j
  frame : ∀ x, ¬t.Uses x → a.mem x = bar x

/-- It serves every command, and its memory in front of command `k` is `mems k`. -/
def Served (t : PciefTgt) (ipc : Nat → IpcAnswer) (rings : List TgtRing) (mems : Nat → TgtMem) :
    Prop :=
  ∀ k r, rings[k]? = some r → (ipc k).Serves t (.found t r.mem (mems k)) r.mem ∧
    mems (k + 1) = (TgtExec.found t r.mem (mems k)).memAfter

namespace TgtExec

variable {e : TgtExec} {address : U64} {n : Nat}

/-- The execution of a write puts the data area's bytes into the memory. -/
theorem memAfter_tgtRwCmd (hcmd : e.cmd = tgtRwCmd 0x4 (BitVec.ofNat 32 n) address)
    (hn : n < 2 ^ 32) : e.memAfter = TgtMem.put e.mem address n e.data := by
  funext a
  simp only [memAfter, hcmd, tgtRwCmd, BitVec.toNat_ofNat, Nat.mod_eq_of_lt hn]
  rw [if_neg (by decide), if_pos trivial]
  rfl

/-- The execution of a read fills the data area from the memory, which stays. -/
theorem after_tgtRwCmd (hcmd : e.cmd = tgtRwCmd 0x3 (BitVec.ofNat 32 n) address)
    (hn : n < 2 ^ 32) :
    e.memAfter = e.mem ∧ ∀ j < n, e.dataAfter j = TgtMem.get e.mem address j := by
  refine ⟨funext fun a => ?_, fun j hj => ?_⟩
  · simp only [memAfter, hcmd, tgtRwCmd]
    rw [if_neg (by decide), if_neg (by decide)]
  · simp only [dataAfter, hcmd, tgtRwCmd, BitVec.toNat_ofNat, Nat.mod_eq_of_lt hn]
    rw [if_pos ⟨trivial, hj⟩]
    rfl

/-- The execution of a 32-bit write puts the four bytes of the value, the low one first. -/
theorem memAfter_wr32 {val : U32} (hcmd : e.cmd = (TgtCmd.wr32 address val).words) :
    e.memAfter = TgtMem.put e.mem address 4 (wordMem val) := by
  funext a
  simp only [memAfter, hcmd, TgtCmd.words]
  rw [if_pos trivial]
  rfl

/-- The execution of a 32-bit read answers with four bytes as a word, and the memory stays. -/
theorem after_rd32 (hcmd : e.cmd = (TgtCmd.rd32 address).words) :
    e.memAfter = e.mem ∧ e.res.head.para0 = read32 e.mem address := by
  refine ⟨funext fun a => ?_, ?_⟩
  · simp only [memAfter, hcmd, TgtCmd.words]
    rw [if_neg (by decide), if_neg (by decide)]
  · simp [res, hcmd, TgtCmd.words]

end TgtExec

/-- A command that is served has succeeded, for its caller too: no answer that serves is taken
for a failure. -/
theorem IpcAnswer.Serves.result {t : PciefTgt} {e : TgtExec} {bar : Mem} {a : IpcAnswer}
    (h : a.Serves t e bar) : a.result t e.cmd.head.cmd = 0 := by
  rw [IpcAnswer.result, if_neg]
  simp [h.done, h.res, TgtExec.res]

/-! ## transfers -/

/-- What a call leaves of BAR 0: its size, and the bytes around the mailbox. -/
structure TgtHost.Keeps (t : PciefTgt) (bar : PciefBar) (h : TgtHost) : Prop where
  size : h.bar.barSize = bar.barSize
  frame : ∀ x, ¬t.Uses x → h.bar.mem x = bar.mem x
  touched : ∀ a ∈ h.bar.touched, a ∈ bar.touched ∨ t.Uses a.toNat

section Served

variable {ipc : Nat → IpcAnswer} {t : PciefTgt} {op : Byte} {stored : Seg U64 → Nat}
  {data : Mem} {bar : PciefBar} {address : U64} {size : U32} {n : Nat} {h : TgtHost}
  {mems : Nat → TgtMem}

/-- Slices that agree, byte by byte. -/
theorem slice_apply {m m' : Mem} {a b k j : Nat} (h : slice m a k = slice m' b k) (hj : j < k) :
    m (a + j) = m' (b + j) :=
  List.map_inj_left.mp h j (List.mem_range.mpr hj)

/-- The execution of command `k` of a transfer: what the target found for it is the command of
its segment, with the segment's data if there are any. -/
theorem TgtIssued.execution {segs : List (Seg U64)}
    (hi : TgtIssued ipc t op stored data bar segs n h) (hserved : Served t ipc h.rings mems)
    {k : Nat} {s : Seg U64} (hk : k < n) (hs : segs[k]? = some s) :
    ∃ e : TgtExec, e.cmd = tgtRwCmd op (BitVec.ofNat 32 s.len) s.src ∧
      (∀ j < stored s, e.data j = data (s.dst.toNat + j)) ∧ e.mem = mems k ∧
      mems (k + 1) = e.memAfter ∧ (ipc k).result t op = 0 ∧
      (∀ j < pciefCmdSize, (ipc k).mem (pciefDataAddr.toNat + j) = e.dataAfter j) ∧
      (stored s ≤ pciefCmdSize →
        ∀ x, ¬t.Uses x → (ipc k).mem x = memBefore ipc bar.mem k x) := by
  obtain ⟨r, hr, hissues⟩ := hi.each k s hk hs
  obtain ⟨hserves, hnext⟩ := hserved k r hr
  have hresult := hserves.result
  have hcmd : (TgtExec.found t r.mem (mems k)).cmd = tgtRwCmd op (BitVec.ofNat 32 s.len) s.src :=
    hissues.cmd
  rw [hcmd] at hresult
  refine ⟨_, hcmd, fun j hj => slice_apply hissues.data hj, rfl, hnext, hresult, hserves.data,
    fun hle x hx => (hserves.frame x hx).trans (hissues.frame x ?_ ?_)⟩
  · exact fun hin => hx (.inr (.inl hin))
  · exact fun hin => hx (.inl ⟨hin.1, hin.2.trans_le (Nat.add_le_add_left hle _)⟩)

/-- The bytes around the mailbox stay, since each answer that serves leaves them. -/
theorem TgtIssued.frame {segs : List (Seg U64)}
    (hi : TgtIssued ipc t op stored data bar segs n h) (hserved : Served t ipc h.rings mems)
    (hn : n ≤ segs.length) (hstored : ∀ s ∈ segs, stored s ≤ pciefCmdSize) {k : Nat} (hk : k ≤ n) :
    ∀ x, ¬t.Uses x → memBefore ipc bar.mem k x = bar.mem x := by
  induction k with
  | zero => exact fun _ _ => rfl
  | succ k ih =>
      intro x hx
      have hlt : k < segs.length := Nat.lt_of_succ_le (hk.trans hn)
      obtain ⟨e, -, -, -, -, -, -, hframe⟩ :=
        hi.execution hserved hk (List.getElem?_eq_getElem hlt)
      exact (hframe (hstored _ (List.getElem_mem hlt)) x hx).trans (ih (by omega) x hx)

theorem setWidth_ofNat_place {k : Nat} (hk : k < 2 ^ 32) :
    (BitVec.ofNat 32 k).setWidth 64 = BitVec.ofNat 64 k := by
  apply BitVec.eq_of_toNat_eq
  rw [BitVec.toNat_setWidth, BitVec.toNat_ofNat, BitVec.toNat_ofNat]
  omega

/-- The memory of the target in front of command `k` of a write: the data of the segments
before it have been put, by induction on `k`. -/
theorem mems_of_write
    (hi : TgtIssued ipc t 0x4 Seg.len data bar (tgtSegs address size) n h)
    (hn : n = (tgtSegs address size).length) (hserved : Served t ipc h.rings mems) {k : Nat}
    (hk : k ≤ n) : mems k = (mems 0).put address (min size.toNat (k * pciefCmdSize)) data := by
  have hsize := size.isLt
  induction k with
  | zero => rw [Nat.zero_mul, Nat.min_zero, TgtMem.put_zero]
  | succ k ih =>
      have hin : k * pciefCmdSize < size.toNat :=
        (lt_numPieces (by decide)).mp (by rwa [← length_tgtSegs address size, ← hn])
      obtain ⟨s, hs, hsrc, hdst, hlen⟩ := tgtSegs_getElem? address size hin
      obtain ⟨e, hcmd, hdata, hmem, hnext, -⟩ := hi.execution hserved hk hs
      have hle : s.len ≤ pciefCmdSize := hlen ▸ Nat.min_le_left _ _
      rw [hnext, TgtExec.memAfter_tgtRwCmd hcmd (hle.trans_lt (by decide)), hmem, ih (by omega),
        hsrc, setWidth_ofNat_place (by omega), Nat.min_eq_right hin.le,
        TgtMem.put_congr hdata, hdst, TgtMem.put_add _ _ _ (by
          have : pciefCmdSize = 0x800 := rfl
          omega), hlen, pieceLen, Nat.succ_mul]
      congr 1
      omega

/-- The memory of the target in front of command `k` of a read is the one it had at the
start. -/
theorem mems_of_read
    (hi : TgtIssued ipc t 0x3 (fun _ => 0) data bar (tgtSegs address size) n h)
    (hn : n = (tgtSegs address size).length) (hserved : Served t ipc h.rings mems) {k : Nat}
    (hk : k ≤ n) : mems k = mems 0 := by
  induction k with
  | zero => rfl
  | succ k ih =>
      have hin : k * pciefCmdSize < size.toNat :=
        (lt_numPieces (by decide)).mp (by rwa [← length_tgtSegs address size, ← hn])
      obtain ⟨s, hs, -, -, hlen⟩ := tgtSegs_getElem? address size hin
      obtain ⟨e, hcmd, -, hmem, hnext, -⟩ := hi.execution hserved hk hs
      have hle : s.len ≤ pciefCmdSize := hlen ▸ Nat.min_le_left _ _
      rw [hnext, (TgtExec.after_tgtRwCmd hcmd (hle.trans_lt (by decide))).1, hmem, ih (by omega)]

/-- What a read has filled in are the bytes of the memory, and behind them the caller's own. -/
theorem data_of_read {data' : Mem}
    (hi : TgtIssued ipc t 0x3 (fun _ => 0) data bar (tgtSegs address size) n h)
    (hn : n = (tgtSegs address size).length) (hserved : Served t ipc h.rings mems)
    (hf : TgtFilled ipc (tgtSegs address size) data n data') {j : Nat} (hj : j < size.toNat) :
    data' j = (mems 0).get address j := by
  have hsize := size.isLt
  have hsplit := Nat.div_add_mod' j pciefCmdSize
  have hmod : j % pciefCmdSize < pciefCmdSize := Nat.mod_lt _ (by decide)
  have hin : j / pciefCmdSize * pciefCmdSize < size.toNat := by omega
  have hlt : j / pciefCmdSize < n := by
    rw [hn, length_tgtSegs]
    exact (lt_numPieces (by decide)).mpr hin
  obtain ⟨s, hs, hsrc, hdst, hlen⟩ := tgtSegs_getElem? address size hin
  obtain ⟨e, hcmd, -, hmem, -, -, hback, -⟩ := hi.execution hserved hlt hs
  have hle : s.len ≤ pciefCmdSize := hlen ▸ Nat.min_le_left _ _
  have hplace : j % pciefCmdSize < s.len := by
    rw [hlen, pieceLen]
    omega
  have hbyte := slice_apply (hf.each _ s hlt hs) hplace
  rw [hback _ (hplace.trans_le hle),
    (TgtExec.after_tgtRwCmd hcmd (hle.trans_lt (by decide))).2 _ hplace, hmem,
    mems_of_read hi hn hserved hlt.le, hsrc, hdst, setWidth_ofNat_place (by omega)] at hbyte
  rw [hsplit] at hbyte
  rw [hbyte]
  unfold TgtMem.get
  rw [BitVec.add_assoc, ← BitVec.ofNat_add, hsplit]

/-- What a transfer leaves when all its commands are through. -/
theorem TgtInv.keeps (hi : TgtInv ipc t op stored data bar size.toNat (tgtSegs address size) n h)
    (hn : n = (tgtSegs address size).length) (hserved : Served t ipc h.rings mems)
    (hstored : ∀ s ∈ tgtSegs address size, stored s ≤ pciefCmdSize) : h.Keeps t bar where
  size := hi.barSize
  frame := fun x hx => by
    rw [hi.mem]
    exact hi.issued.frame hserved hn.le hstored le_rfl x hx
  touched := hi.issued.touched

/-- A failed command was not served, so a transfer whose commands are all served does not
fail. -/
theorem TgtIssued.not_served {segs : List (Seg U64)} {k : Nat}
    (hi : TgtIssued ipc t op stored data bar segs (k + 1) h) (hk : k < segs.length)
    (he : (ipc k).result t op ≠ 0) : ¬Served t ipc h.rings mems := fun hserved => by
  obtain ⟨e, -, -, -, -, hresult, -⟩ :=
    hi.execution hserved (Nat.lt_succ_self k) (List.getElem?_eq_getElem hk)
  exact he hresult

end Served

section Calls

variable (ipc : Nat → IpcAnswer) (t : PciefTgt) (address : U64) (size : U32) {bar : PciefBar}

/-- `pcief_tgt_wr` to a target that serves returns 0 and has put all its data, however many
commands that took. -/
theorem pciefTgtWr_served (data : Mem) (hbar : bar.HoldsMailbox) :
    ∃ ret h, TgtHost.pciefTgtWr ipc t.b0 address data size bar = some (ret, h) ∧
      (∃ n ≤ (tgtSegs address size).length,
        TgtIssued ipc t 0x4 Seg.len data bar (tgtSegs address size) n h) ∧
      ∀ mems, Served t ipc h.rings mems → ret = 0 ∧ h.Keeps t bar ∧
        mems h.rings.length = (mems 0).put address size.toNat data := by
  have hend : Ended (numPieces pciefCmdSize size.toNat) (fun k => (ipc k).result t 0x4)
      (TgtInv ipc t 0x4 Seg.len data bar size.toNat (tgtSegs address size))
      (fun k => TgtIssued ipc t 0x4 Seg.len data bar (tgtSegs address size) (k + 1))
      (TgtHost.pciefTgtWr ipc t.b0 address data size bar) :=
    whilePieces_spec pciefCmdSize32_pos
      (fun _ _ hk hi => tgtWrRound_spec ipc t address size data hbar hk hi) (Nat.le_refl _)
      (tgtInv_zero size.toNat)
  rw [← length_tgtSegs address size] at hend
  have hle : ∀ s ∈ tgtSegs address size, Seg.len s ≤ pciefCmdSize := fun s hs =>
    ((tgtTiles_tgtSegs address size).each s hs).2
  generalize hr : TgtHost.pciefTgtWr ipc t.b0 address data size bar = r at hend
  cases hend with
  | @all h _ hi =>
      refine ⟨0, h, rfl, ⟨_, le_rfl, hi.issued⟩, fun mems hserved =>
        ⟨rfl, hi.keeps rfl hserved hle, ?_⟩⟩
      have hall : size.toNat ≤ numPieces pciefCmdSize size.toNat * pciefCmdSize :=
        Nat.not_lt.mp fun hlt => (Nat.lt_irrefl _) ((lt_numPieces (by decide)).mpr hlt)
      rw [hi.issued.count, mems_of_write hi.issued rfl hserved le_rfl, length_tgtSegs,
        Nat.min_eq_left hall]
  | @first h k hk _ he hi =>
      exact ⟨-1, h, rfl, ⟨_, hk, hi⟩, fun mems hserved => absurd hserved (hi.not_served hk he)⟩

/-- `pcief_tgt_rd` from a target that serves returns 0 with the bytes of its memory. -/
theorem pciefTgtRd_served (data : Mem) (hbar : bar.HoldsMailbox) :
    ∃ ret h data', TgtHost.pciefTgtRd ipc t.b0 address data size bar = some (ret, h, data') ∧
      (∃ n ≤ (tgtSegs address size).length,
        TgtIssued ipc t 0x3 (fun _ => 0) data bar (tgtSegs address size) n h) ∧
      ∀ mems, Served t ipc h.rings mems → ret = 0 ∧ h.Keeps t bar ∧
        mems h.rings.length = mems 0 ∧ ∀ j < size.toNat, data' j = (mems 0).get address j := by
  have hend : Ended (numPieces pciefCmdSize size.toNat) (fun k => (ipc k).result t 0x3)
      (fun k s => TgtInv ipc t 0x3 (fun _ => 0) data bar size.toNat (tgtSegs address size) k s.1 ∧
        TgtFilled ipc (tgtSegs address size) data k s.2)
      (fun k s => TgtIssued ipc t 0x3 (fun _ => 0) data bar (tgtSegs address size) (k + 1) s.1 ∧
        TgtFilled ipc (tgtSegs address size) data k s.2)
      (TgtHost.pciefTgtRd ipc t.b0 address data size bar) :=
    whilePieces_spec pciefCmdSize32_pos
      (fun k s hk hi => by
        obtain ⟨h', data'', hround⟩ :=
          tgtRdRound_spec ipc t address size data hbar hk hi.1 hi.2
        exact ⟨(h', data''), hround⟩)
      (Nat.le_refl _) ⟨tgtInv_zero size.toNat, tgtFilled_zero⟩
  rw [← length_tgtSegs address size] at hend
  generalize hr : TgtHost.pciefTgtRd ipc t.b0 address data size bar = r at hend
  cases hend with
  | @all s _ hi =>
      exact ⟨0, s.1, s.2, rfl, ⟨_, le_rfl, hi.1.issued⟩, fun mems hserved =>
        ⟨rfl, hi.1.keeps rfl hserved fun _ _ => Nat.zero_le _,
          by rw [hi.1.issued.count, mems_of_read hi.1.issued rfl hserved le_rfl],
          fun j hj => data_of_read hi.1.issued rfl hserved hi.2 hj⟩⟩
  | @first s k hk _ he hi =>
      exact ⟨-1, s.1, s.2, rfl, ⟨_, hk, hi.1⟩,
        fun mems hserved => absurd hserved (hi.1.not_served hk he)⟩

/-- One command to a target that serves, with the response that the register functions look
at. -/
theorem pciefSendTgtCmdRes_served (cmd : PciefTgtCmdRes) (hbar : bar.HoldsMailbox) :
    ∃ ret h res, pciefSendTgtCmdRes ipc t.b0 cmd ⟨bar, [], 0⟩ = some (ret, h, res) ∧
      h.rings = [⟨t.b0, copy cmd.mem 0 bar.mem t.cmdAddr.toNat 32⟩] ∧
      ∀ mems, Served t ipc h.rings mems → ret = 0 ∧ h.Keeps t bar ∧
        ∃ e : TgtExec, e.cmd = cmd ∧ e.mem = mems 0 ∧ mems h.rings.length = e.memAfter ∧
          res = e.res := by
  obtain ⟨h, res, hrun, hsent, hres⟩ := pciefSendTgtCmdRes_spec ipc t cmd ⟨bar, [], 0⟩ hbar
  have hrings : h.rings = [⟨t.b0, copy cmd.mem 0 bar.mem t.cmdAddr.toNat 32⟩] := hsent.rings
  refine ⟨_, h, res, hrun, hrings, fun mems hserved => ?_⟩
  obtain ⟨hserves, hnext⟩ := hserved 0 _ (by rw [hrings]; rfl)
  have hcmd : (TgtExec.found t (copy cmd.mem 0 bar.mem t.cmdAddr.toNat 32) (mems 0)).cmd = cmd :=
    (PciefTgtCmdRes.ofMem_copy _ _ 0 _).trans (PciefTgtCmdRes.ofMem_mem _)
  have hresult := hserves.result
  rw [hcmd] at hresult
  refine ⟨hresult, ⟨hsent.size, fun x hx => ?_, hsent.touched⟩, _, hcmd, rfl,
    by rw [hrings]; exact hnext, ?_⟩
  · rw [hsent.mem]
    exact (hserves.frame x hx).trans (if_neg fun hin => hx (.inr (.inl hin)))
  · exact (hres hresult).trans hserves.res

end Calls

/-! ## sessions -/

section Sessions

variable {t : PciefTgt} {bar bar' : PciefBar} {mem mem' : TgtMem}

/-- A call to a target that serves is the access to its memory. -/
theorem call_served (ipc : Nat → IpcAnswer) (t : PciefTgt) (buf : Mem) (val : U32)
    {call : TgtCall} (hfits : call.Fits) (hbar : bar.HoldsMailbox) :
    ∃ ret h reply, TgtHost.call ipc t.b0 buf val bar call = some (ret, h, reply) ∧
      ∀ mems, Served t ipc h.rings mems → ret = 0 ∧ h.Keeps t bar ∧
        (reply, mems h.rings.length) = call.onMem (mems 0) := by
  cases call with
  | rd address size =>
      obtain ⟨ret, h, data, hrun, -, hserves⟩ := pciefTgtRd_served ipc t address size buf hbar
      refine ⟨ret, h, .bytes (slice data 0 size.toNat), by simp [TgtHost.call, hrun],
        fun mems hserved => ?_⟩
      obtain ⟨hret, hkeeps, hmem, hdata⟩ := hserves mems hserved
      refine ⟨hret, hkeeps, Prod.ext (congrArg TgtReply.bytes ?_) hmem⟩
      refine List.map_congr_left fun k hk => ?_
      rw [Nat.zero_add, hdata k (List.mem_range.mp hk)]
  | wr address data =>
      obtain ⟨ret, h, hrun, -, hserves⟩ :=
        pciefTgtWr_served ipc t address (BitVec.ofNat 32 data.length) (listMem data) hbar
      refine ⟨ret, h, .nothing, by simp [TgtHost.call, hrun], fun mems hserved => ?_⟩
      obtain ⟨hret, hkeeps, hmem⟩ := hserves mems hserved
      rw [BitVec.toNat_ofNat, Nat.mod_eq_of_lt hfits] at hmem
      exact ⟨hret, hkeeps, Prod.ext rfl hmem⟩
  | sregU32 address w =>
      obtain ⟨ret, h, res, hrun, -, hserves⟩ :=
        pciefSendTgtCmdRes_served ipc t (TgtCmd.wr32 address w).words hbar
      refine ⟨ret, h, .nothing, by
        simp [TgtHost.call, TgtHost.pciefTgtSregU32, pciefSendTgtCmd, hrun],
        fun mems hserved => ?_⟩
      obtain ⟨hret, hkeeps, e, hcmd, hmem, hafter, -⟩ := hserves mems hserved
      refine ⟨hret, hkeeps, Prod.ext rfl ?_⟩
      rw [hafter, TgtExec.memAfter_wr32 hcmd, hmem]
      rfl
  | gregU32 address =>
      obtain ⟨ret, h, res, hrun, -, hserves⟩ :=
        pciefSendTgtCmdRes_served ipc t (TgtCmd.rd32 address).words hbar
      by_cases h0 : ret = 0
      · refine ⟨0, h, .word res.head.para0, by
          simp [TgtHost.call, TgtHost.pciefTgtGregU32, hrun, h0], fun mems hserved => ?_⟩
        obtain ⟨-, hkeeps, e, hcmd, hmem, hafter, hres⟩ := hserves mems hserved
        obtain ⟨hkept, hword⟩ := TgtExec.after_rd32 hcmd
        refine ⟨rfl, hkeeps, Prod.ext (congrArg TgtReply.word ?_) ?_⟩
        · rw [hres, hword, hmem]
        · rw [hafter, hkept, hmem]
          rfl
      · exact ⟨-1, h, .word val, by simp [TgtHost.call, TgtHost.pciefTgtGregU32, hrun, h0],
          fun mems hserved => absurd (hserves mems hserved).1 h0⟩

/-- A session with a target that serves: each call with its result and what it gives back, BAR 0
and the memory of the target from the first call to the last. -/
inductive Session (t : PciefTgt) :
    PciefBar → TgtMem → List (TgtCall × Int × TgtReply) → PciefBar → TgtMem → Prop
  | done {bar : PciefBar} {mem : TgtMem} : Session t bar mem [] bar mem
  | call {bar bar' : PciefBar} {mem' : TgtMem} {ipc : Nat → IpcAnswer} {buf : Mem} {val : U32}
      {call : TgtCall} {ret : Int} {h : TgtHost} {reply : TgtReply} {mems : Nat → TgtMem}
      {log : List (TgtCall × Int × TgtReply)}
      (hrun : TgtHost.call ipc t.b0 buf val bar call = some (ret, h, reply))
      (hserved : Served t ipc h.rings mems)
      (hrest : Session t h.bar (mems h.rings.length) log bar' mem') :
      Session t bar (mems 0) ((call, ret, reply) :: log) bar' mem'

/-! ## a target that serves, as a program -/

/-- What a target leaves in BAR 0 when it has served a command: the response, and the data if
it was a read. -/
def TgtExec.answer (t : PciefTgt) (e : TgtExec) (bar : Mem) : IpcAnswer where
  ret := 0
  b0 := 1
  mem := copy e.res.mem 0
    (fun x => if pciefDataAddr.toNat ≤ x ∧ x < pciefDataAddr.toNat + pciefCmdSize then
      e.dataAfter (x - pciefDataAddr.toNat) else bar x) t.resAddr.toNat 32

theorem TgtExec.serves_answer (t : PciefTgt) (e : TgtExec) (bar : Mem) :
    (e.answer t bar).Serves t e bar where
  done := rfl
  res := (PciefTgtCmdRes.ofMem_copy _ _ 0 _).trans (PciefTgtCmdRes.ofMem_mem _)
  data j hj := by
    have hbound := t.addrs_lt
    refine (if_neg (by omega)).trans ((if_pos ⟨by omega, by omega⟩).trans ?_)
    rw [Nat.add_sub_cancel_left]
  frame x hx := (if_neg fun hin => hx (.inr (.inr hin))).trans (if_neg fun hin => hx (.inl hin))

section Serving

variable (t : PciefTgt) (op : Byte) (stored : Seg U64 → Nat) (data : Mem) (segs : List (Seg U64))

/-- BAR 0 when the command for segment `k` is in the mailbox, `before` in front of it. -/
def servedRing (before : Mem) (k : Nat) : Mem :=
  let s := segs.getD k ⟨0, 0, 0⟩
  copy (tgtRwCmd op (BitVec.ofNat 32 s.len) s.src).mem 0
    (copy data s.dst.toNat before pciefDataAddr.toNat (stored s)) t.cmdAddr.toNat 32

/-- BAR 0 and the memory of the target in front of command `k`, each command served on what
the one before it left. -/
def serving (bar : Mem) (mem : TgtMem) : Nat → Mem × TgtMem
  | 0 => (bar, mem)
  | k + 1 =>
      let (before, mem) := serving bar mem k
      let ring := servedRing t op stored data segs before k
      let e := TgtExec.found t ring mem
      ((e.answer t ring).mem, e.memAfter)

/-- The answers of the target. -/
def servingIpc (bar : Mem) (mem : TgtMem) (k : Nat) : IpcAnswer :=
  let (before, mem) := serving t op stored data segs bar mem k
  let ring := servedRing t op stored data segs before k
  (TgtExec.found t ring mem).answer t ring

theorem memBefore_servingIpc (bar : Mem) (mem : TgtMem) (k : Nat) :
    memBefore (servingIpc t op stored data segs bar mem) bar k =
      (serving t op stored data segs bar mem k).1 := by
  cases k with
  | zero => rfl
  | succ k => rfl

/-- These answers serve the commands of a transfer. -/
theorem served_servingIpc {bar : PciefBar} (mem : TgtMem) {n : Nat} {h : TgtHost}
    (hi : TgtIssued (servingIpc t op stored data segs bar.mem mem) t op stored data bar segs n h)
    (hn : n ≤ segs.length) :
    Served t (servingIpc t op stored data segs bar.mem mem) h.rings
      fun k => (serving t op stored data segs bar.mem mem k).2 := by
  intro k r hr
  have hk : k < n := by
    rw [← hi.count]
    exact (List.getElem?_eq_some_iff.mp hr).1
  have hlt : k < segs.length := hk.trans_le hn
  obtain ⟨r', hr', hissues⟩ := hi.each k _ hk (List.getElem?_eq_getElem hlt)
  obtain rfl : r = r' := Option.some.inj (hr.symm.trans hr')
  rw [memBefore_servingIpc] at hissues
  have hbound := t.addrs_lt
  have hseg : segs.getD k ⟨0, 0, 0⟩ = segs[k] := by simp [hlt]
  generalize hstate : serving t op stored data segs bar.mem mem k = state at hissues
  have hanswer : servingIpc t op stored data segs bar.mem mem k =
      (TgtExec.found t (servedRing t op stored data segs state.1 k) state.2).answer t
        (servedRing t op stored data segs state.1 k) := by
    rw [← hstate]
    rfl
  have hnext : (serving t op stored data segs bar.mem mem (k + 1)).2 =
      (TgtExec.found t (servedRing t op stored data segs state.1 k) state.2).memAfter := by
    rw [← hstate]
    rfl
  -- the ring is the expected one, but for how the bytes of the command are said
  have hcmd : PciefTgtCmdRes.ofMem r.mem t.cmdAddr.toNat =
      PciefTgtCmdRes.ofMem (servedRing t op stored data segs state.1 k) t.cmdAddr.toNat := by
    rw [hissues.cmd, servedRing, hseg]
    exact ((PciefTgtCmdRes.ofMem_copy _ _ 0 _).trans (PciefTgtCmdRes.ofMem_mem _)).symm
  have hrest : ∀ x, ¬(t.cmdAddr.toNat ≤ x ∧ x < t.cmdAddr.toNat + 32) →
      r.mem x = servedRing t op stored data segs state.1 k x := fun x hx => by
    rw [servedRing, copy, if_neg hx, hseg, copy]
    split
    · next hin =>
        have hbyte := slice_apply hissues.data (j := x - pciefDataAddr.toNat) (by omega)
        rwa [Nat.add_sub_cancel' hin.1] at hbyte
    · next hout => exact hissues.frame x hx hout
  have hfound : TgtExec.found t r.mem state.2 =
      TgtExec.found t (servedRing t op stored data segs state.1 k) state.2 := by
    unfold TgtExec.found
    rw [hcmd]
    congr 1
    funext j
    exact hrest _ (by omega)
  have hserves := TgtExec.serves_answer t
    (TgtExec.found t (servedRing t op stored data segs state.1 k) state.2)
    (servedRing t op stored data segs state.1 k)
  beta_reduce
  rw [hnext, hanswer, hstate, hfound]
  exact ⟨⟨hserves.done, hserves.res, hserves.data, fun x hx => (hserves.frame x hx).trans
    (hrest x fun hin => hx (.inr (.inl hin))).symm⟩, rfl⟩

end Serving

/-- One command, served: there is an answer that does, whatever the command is. -/
theorem exists_served_cmd (t : PciefTgt) (cmd : PciefTgtCmdRes) (bar : Mem) (mem : TgtMem) :
    ∃ ipc mems, mems 0 = mem ∧
      Served t ipc [⟨t.b0, copy cmd.mem 0 bar t.cmdAddr.toNat 32⟩] mems := by
  generalize copy cmd.mem 0 bar t.cmdAddr.toNat 32 = ring
  let e := TgtExec.found t ring mem
  refine ⟨fun _ => e.answer t ring, fun k => if k = 0 then mem else e.memAfter, rfl,
    fun k r hr => ?_⟩
  obtain ⟨rfl, rfl⟩ : k = 0 ∧ r = ⟨t.b0, ring⟩ := by
    cases k with
    | zero => exact ⟨rfl, (Option.some.inj hr).symm⟩
    | succ k => simp at hr
  exact ⟨e.serves_answer t ring, rfl⟩

/-- Every call can be served, on any BAR that holds the mailbox and any memory. -/
theorem exists_served (t : PciefTgt) {call : TgtCall} (hfits : call.Fits)
    (hbar : bar.HoldsMailbox) (mem : TgtMem) :
    ∃ ipc buf val ret h reply mems, TgtHost.call ipc t.b0 buf val bar call = some (ret, h, reply) ∧
      Served t ipc h.rings mems ∧ mems 0 = mem := by
  cases call with
  | rd address size =>
      obtain ⟨ret, h, data, hrun, ⟨n, hn, hi⟩, -⟩ := pciefTgtRd_served
        (servingIpc t 0x3 (fun _ => 0) (fun _ => 0) (tgtSegs address size) bar.mem mem)
        t address size (fun _ => 0) hbar
      exact ⟨_, fun _ => 0, 0, ret, h, .bytes (slice data 0 size.toNat), _,
        by rw [TgtHost.call, hrun]; rfl, served_servingIpc t _ _ _ _ mem hi hn, rfl⟩
  | wr address data =>
      obtain ⟨ret, h, hrun, ⟨n, hn, hi⟩, -⟩ := pciefTgtWr_served
        (servingIpc t 0x4 Seg.len (listMem data) (tgtSegs address (BitVec.ofNat 32 data.length))
          bar.mem mem) t address (BitVec.ofNat 32 data.length) (listMem data) hbar
      exact ⟨_, fun _ => 0, 0, ret, h, .nothing, _, by rw [TgtHost.call, hrun]; rfl,
        served_servingIpc t _ _ _ _ mem hi hn, rfl⟩
  | sregU32 address w =>
      obtain ⟨ipc, mems, hmem, hserved⟩ :=
        exists_served_cmd t (TgtCmd.wr32 address w).words bar.mem mem
      obtain ⟨ret, h, res, hrun, hrings, -⟩ :=
        pciefSendTgtCmdRes_served ipc t (TgtCmd.wr32 address w).words hbar
      exact ⟨ipc, fun _ => 0, 0, ret, h, .nothing, mems, by
        simp [TgtHost.call, TgtHost.pciefTgtSregU32, pciefSendTgtCmd, hrun],
        by rwa [hrings], hmem⟩
  | gregU32 address =>
      obtain ⟨ipc, mems, hmem, hserved⟩ :=
        exists_served_cmd t (TgtCmd.rd32 address).words bar.mem mem
      obtain ⟨ret, h, reply, hrun, -⟩ := call_served ipc t (fun _ => 0) 0 hfits hbar
      obtain ⟨ret', h', res, hcmd, hrings, -⟩ :=
        pciefSendTgtCmdRes_served ipc t (TgtCmd.rd32 address).words hbar
      refine ⟨ipc, fun _ => 0, 0, ret, h, reply, mems, hrun, ?_, hmem⟩
      obtain rfl : h = h' := by
        simp only [TgtHost.call, TgtHost.pciefTgtGregU32, hcmd, Option.bind_eq_bind,
          Option.bind_some] at hrun
        split at hrun <;> exact (Prod.mk.inj (Prod.mk.inj (Option.some.inj hrun)).2).1.symm
      rwa [hrings]

/-- Every list of calls has a session. -/
theorem exists_session (t : PciefTgt) {calls : List TgtCall} (hfits : ∀ call ∈ calls, call.Fits)
    (hbar : bar.HoldsMailbox) (mem : TgtMem) :
    ∃ log bar' mem', log.map (fun e => e.1) = calls ∧ Session t bar mem log bar' mem' := by
  induction calls generalizing bar mem with
  | nil => exact ⟨[], bar, mem, rfl, .done⟩
  | cons call calls ih =>
      rw [List.forall_mem_cons] at hfits
      obtain ⟨ipc, buf, val, ret, h, reply, mems, hrun, hserved, rfl⟩ :=
        exists_served t hfits.1 hbar mem
      obtain ⟨ret', h', reply', hrun', hserves⟩ := call_served ipc t buf val hfits.1 hbar
      obtain rfl : h' = h := by
        have heq := Option.some.inj (hrun'.symm.trans hrun)
        simp only [Prod.mk.injEq] at heq
        exact heq.2.1
      have hkeeps := (hserves mems hserved).2.1
      obtain ⟨log, bar', mem', hcalls, hsession⟩ :=
        ih hfits.2 (by rwa [PciefBar.HoldsMailbox, hkeeps.size]) (mems h'.rings.length)
      exact ⟨(call, ret, reply) :: log, bar', mem', congrArg (call :: ·) hcalls,
        .call hrun hserved hsession⟩

/-- **Remote memory**: the calls of a session all succeed, what they give back and what they
leave is that of the same accesses to one memory, BAR 0 is as before around the mailbox, and
there is no call that does not return. -/
theorem tgt_session {log : List (TgtCall × Int × TgtReply)} (hbar : bar.HoldsMailbox)
    (hfits : ∀ e ∈ log, e.1.Fits) (h : Session t bar mem log bar' mem') :
    (∀ e ∈ log, e.2.1 = 0) ∧
      (log.map fun e => e.2.2, mem') = mem.runCalls (log.map fun e => e.1) ∧
      bar'.barSize = bar.barSize ∧ (∀ x, ¬t.Uses x → bar'.mem x = bar.mem x) ∧
      ∀ ipc buf val (call : TgtCall), call.Fits →
        ∃ r, TgtHost.call ipc t.b0 buf val bar' call = some r := by
  induction h with
  | done =>
      refine ⟨nofun, rfl, rfl, fun _ _ => rfl, fun ipc buf val call hcall => ?_⟩
      obtain ⟨ret, h, reply, hrun, -⟩ := call_served ipc t buf val hcall hbar
      exact ⟨_, hrun⟩
  | @call bar bar' mem' ipc buf val call ret h reply mems log hrun hserved hrest ih =>
      rw [List.forall_mem_cons] at hfits
      obtain ⟨ret', h', reply', hrun', hserves⟩ := call_served ipc t buf val hfits.1 hbar
      obtain ⟨rfl, rfl, rfl⟩ : ret' = ret ∧ h' = h ∧ reply' = reply := by
        have heq := Option.some.inj (hrun'.symm.trans hrun)
        simpa only [Prod.mk.injEq] using heq
      obtain ⟨hret, hkeeps, hreply⟩ := hserves mems hserved
      obtain ⟨hrets, hreplies, hsize, hframe, hgo⟩ :=
        ih (by rwa [PciefBar.HoldsMailbox, hkeeps.size]) hfits.2
      refine ⟨List.forall_mem_cons.mpr ⟨hret, hrets⟩, ?_, hsize.trans hkeeps.size,
        fun x hx => (hframe x hx).trans (hkeeps.frame x hx), hgo⟩
      rw [List.map_cons, List.map_cons, TgtMem.runCalls, ← hreply]
      simp only [← hreplies]

/-- Three bytes, of which the last two are read back. -/
theorem tgt_session_threeBytes :
    let bar : PciefBar := ⟨0x2000000, fun _ => 0, []⟩
    ∃ log bar' mem', Session .smc bar (fun _ => 0) log bar' mem' ∧
      log.map (fun e => e.1) = [.wr 0xffffffffffffffff [1, 2, 3], .rd 0 2] ∧
      (∀ e ∈ log, e.2.1 = 0) ∧ log.map (fun e => e.2.2) = [.nothing, .bytes [2, 3]] ∧
      ∀ x, ¬PciefTgt.smc.Uses x → bar'.mem x = 0 := by
  intro bar
  have hbar : bar.HoldsMailbox := by
    unfold PciefBar.HoldsMailbox
    decide
  have hfits : ∀ call ∈ [TgtCall.wr 0xffffffffffffffff [1, 2, 3], .rd 0 2], call.Fits := by
    simp [TgtCall.Fits]
  obtain ⟨log, bar', mem', hcalls, hsession⟩ := exists_session .smc hfits hbar fun _ => 0
  have hlog : ∀ e ∈ log, e.1.Fits := fun e he =>
    hfits e.1 (hcalls ▸ List.mem_map_of_mem he)
  obtain ⟨hret, hreplies, -, hframe, -⟩ := tgt_session hbar hlog hsession
  rw [hcalls] at hreplies
  exact ⟨log, bar', mem', hsession, hcalls, hret, congrArg Prod.fst hreplies, hframe⟩

end Sessions

end MtEmu
