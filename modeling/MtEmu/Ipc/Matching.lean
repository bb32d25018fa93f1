import MtEmu.Ipc.Mailbox

/-!
# MtEmu.Ipc.Matching

Which response a target command gets.

There is one mailbox and one response interrupt for a target, and nothing
keeps two threads apart: `pcief_send_tgt_cmd` takes `g_pcief_tgt_mutex` in its
`TGT_LOOP` variant only.  The tag and the command code that are compared
cannot tell two commands of a kind apart.

`commands_matched` says what holds of the runs in which a command begins only
while no other thread is inside one and the target has no doorbell and no
command left (`Exclusive`): the target executes what was sent, once and in
order, and a call that returns 0 got the responses to its own commands.  Two
reads by two threads are enough otherwise (`reads_mixed_up`), and one thread
is, when a command times out and the target answers late.
-/

namespace MtEmu

open Machine Piecewise

/-! ## what is wanted -/

/-- What was read is what the memory held at the command's own address, at the
moment of the execution `e`.  A write reads nothing. -/
def TgtRecord.Answers (r : TgtRecord) (e : TgtExec) : Prop :=
  match r.cmd with
  | .rd32 addr => r.val = TgtExec.read32 e.mem addr
  | .rd addr len => ∀ j < len.1, r.data j = e.mem (addr + BitVec.ofNat 64 j)
  | .wr32 _ _ | .wr _ _ => True

namespace MboxSys

variable {mbox : Bool} {t : PciefTgt} {s s' : MboxSys}

/-- A command of a thread that has ended well was executed as sent, and was
answered by that execution.  `idx` is the command's place in the order in
which doorbells were rung; the execution has the same place in its own. -/
def Matched (s : MboxSys) (c : Nat) (r : TgtRecord) : Prop :=
  s.sent[r.idx]? = some (c, r.cmd) ∧ ∃ e, s.execs[r.idx]? = some e ∧ e.Of r.cmd ∧ r.Answers e

/-- The executions are those of the commands sent, one each and in order, with
at most one command still to come; the memory is what they make of it; and the
commands of a call that returned 0 are matched, each with an execution of its
own. -/
structure Served (s : MboxSys) : Prop where
  sent : s.execs.length ≤ s.sent.length ∧ s.sent.length ≤ s.execs.length + 1
  once : ∀ (i : Nat) (e : TgtExec), s.execs[i]? = some e → ∃ p, s.sent[i]? = some p ∧ e.Of p.2
  memory : ∀ e, s.execs.getLast? = some e → s.mem = e.memAfter
  chained : ∀ (i : Nat) (e e' : TgtExec), s.execs[i]? = some e → s.execs[i + 1]? = some e' →
    e'.mem = e.memAfter
  call : ∀ c, (s.th c).ret = some 0 →
    ((s.th c).finished.drop (s.th c).base).map (·.cmd) = (s.th c).call
  matched : ∀ c, ∀ r ∈ (s.th c).finished, s.Matched c r
  apart : ∀ c, ((s.th c).finished.map (·.idx)).Pairwise (· < ·)

/-- A command begins while no thread is inside another, and the target has
nothing left to do.  The second part is not implied by the first: a command
that has timed out is over for its thread, and may still be with the target. -/
def Exclusive (t : PciefTgt) (s : MboxSys) : MboxAct → Prop
  | .begin _ => s.inside = [] ∧ s.ipc.bell t = false ∧ s.ipc.serving t = false
  | _ => True

instance (t : PciefTgt) (s : MboxSys) (a : MboxAct) : Decidable (Exclusive t s a) := by
  unfold Exclusive
  split <;> infer_instance

/-! ## executions -/

end MboxSys

namespace TgtExec

variable {e : TgtExec}

/-- The execution of a write puts its data at its address. -/
theorem memAfter_wr {addr : U64} {data : { d : List Byte // d.length ≤ pciefCmdSize }}
    (h : e.Of (.wr addr data)) (a : U64) :
    e.memAfter a =
      if (a - addr).toNat < data.1.length then data.1.getD (a - addr).toNat 0 else e.mem a := by
  obtain ⟨hcmd, hdata⟩ := h
  have hlen : data.1.length < 0x100000000 := Nat.lt_of_le_of_lt data.2 (by decide)
  simp only [memAfter, hcmd, TgtCmd.words, BitVec.toNat_ofNat, Nat.mod_eq_of_lt hlen]
  rw [if_neg (by decide), if_pos trivial]
  split
  · next hk => exact hdata _ hk
  · rfl

/-- The execution of a read leaves the data area with what is at its address. -/
theorem dataAfter_rd {addr : U64} {len : { n : Nat // n ≤ pciefCmdSize }} (h : e.Of (.rd addr len))
    {j : Nat} (hj : j < len.1) : e.dataAfter j = e.mem (addr + BitVec.ofNat 64 j) := by
  have hlen : len.1 < 0x100000000 := Nat.lt_of_le_of_lt len.2 (by decide)
  simp only [dataAfter, h.1, TgtCmd.words, BitVec.toNat_ofNat, Nat.mod_eq_of_lt hlen]
  rw [if_pos ⟨trivial, hj⟩]

/-- The response to a 32-bit read has what is at its address. -/
theorem res_rd32 {addr : U64} (h : e.Of (.rd32 addr)) : e.res.head.para0 = read32 e.mem addr := by
  simp [res, h.1, TgtCmd.words]

end TgtExec

/-! ## the invariant -/

/-- The commands of its call that a thread has not ended, if it is in one: the
current one first. -/
def TgtThread.left (th : TgtThread) : Option (List TgtCmd) :=
  match th.pc with
  | .idle => none
  | .next => some th.todo
  | .run cmd _ => some (cmd :: th.todo)

namespace IpcPc

/-- The thread is in no ioctl. -/
def Ended : IpcPc → Prop
  | .idle | .fault | .returned _ => True
  | _ => False

/-- The ioctl is about this target, or over. -/
def On (t : PciefTgt) : IpcPc → Prop
  | .entered t' | .switched t' | .locked t' | .reinited t' | .waiting t' | .waited t' _ => t' = t
  | .returned _ => True
  | .idle | .fault => False

/-- The doorbell is still to be rung, if at all.  With the mailbox it is rung
before the lock is taken, and without it after the completion is emptied. -/
def Early (mbox : Bool) : IpcPc → Prop
  | .entered _ => True
  | .switched _ | .locked _ | .reinited _ => mbox = false
  | _ => False

end IpcPc

namespace MboxSys

variable {mbox : Bool} {t : PciefTgt} {s s' : MboxSys} {c : Nat} {cmd : TgtCmd}

/-- The target has no doorbell and no command. -/
def Idle (t : PciefTgt) (s : MboxSys) : Prop := s.ipc.bell t = false ∧ s.ipc.serving t = false

/-- The mailbox holds a command and its data; behind the data the area holds
whatever it held. -/
def Holds (s : MboxSys) (cmd : TgtCmd) : Prop :=
  s.cmd = cmd.words ∧ ∀ j < cmd.out.length, s.data j = cmd.out.getD j 0

/-- **The target**: a doorbell is that of the last command sent, which the
mailbox holds; a command that is served is the last one executed; and the
executions are those of the commands sent. -/
structure LogOk (t : PciefTgt) (s : MboxSys) : Prop where
  bell : s.ipc.bell t = true →
    s.ipc.serving t = false ∧ ∃ p, s.sent.getLast? = some p ∧ s.Holds p.2
  serving : s.ipc.serving t = true →
    ∃ e, s.execs.getLast? = some e ∧ (s.resPut = true → s.res = e.res)
  length : s.sent.length = s.execs.length + if s.ipc.bell t then 1 else 0
  once : ∀ (i : Nat) (e : TgtExec), s.execs[i]? = some e → ∃ p, s.sent[i]? = some p ∧ e.Of p.2
  memory : ∀ e, s.execs.getLast? = some e → s.mem = e.memAfter
  chained : ∀ (i : Nat) (e e' : TgtExec), s.execs[i]? = some e → s.execs[i + 1]? = some e' →
    e'.mem = e.memAfter

/-- **A thread**: what it has done of its call, and what it got for it. -/
structure ThreadOk (s : MboxSys) (c : Nat) : Prop where
  base : (s.th c).base ≤ (s.th c).finished.length
  left : ∀ cmds, (s.th c).left = some cmds →
    ((s.th c).finished.drop (s.th c).base).map (·.cmd) ++ cmds = (s.th c).call
  ret : (s.th c).left ≠ none → (s.th c).ret = none
  call : (s.th c).ret = some 0 →
    ((s.th c).finished.drop (s.th c).base).map (·.cmd) = (s.th c).call
  matched : ∀ r ∈ (s.th c).finished, s.Matched c r
  apart : ((s.th c).finished.map (·.idx)).Pairwise (· < ·)

/-- The last command sent is the thread's current one, and was sent after all
that the thread has ended. -/
structure Mine (s : MboxSys) (c : Nat) (cmd : TgtCmd) : Prop where
  last : s.sent.getLast? = some (c, cmd)
  idx : (s.th c).idx + 1 = s.sent.length
  later : ∀ r ∈ (s.th c).finished, r.idx < (s.th c).idx

/-- The ioctl has seen, or will see, a response: the completion is completed and
will be waited for, or the wait has ended with it. -/
def Woken (t : PciefTgt) (s : MboxSys) (c : Nat) : Prop :=
  (s.ipc.pc c = .reinited t ∨ s.ipc.pc c = .waiting t) ∧ s.ipc.done t ≠ 0 ∨
    s.ipc.pc c = .waited t true ∨ s.ipc.pc c = .returned true

/-- A thread inside the ioctl.  Before it has rung the doorbell the target has
nothing to do (`quiet`); after that the command is its own (`mine`), and once
the target has executed it, the data area is what that execution left
(`out`).  A response is seen only when the target has answered (`woken`). -/
structure InIoctl (mbox : Bool) (t : PciefTgt) (s : MboxSys) (c : Nat) (cmd : TgtCmd) : Prop where
  on : (s.ipc.pc c).On t
  early : (s.ipc.pc c).Early mbox → s.ipc.rung c = false
  quiet : s.ipc.rung c = false → s.Idle t ∧ s.Holds cmd
  mine : s.ipc.rung c = true → s.Mine c cmd
  out : s.ipc.rung c = true → s.ipc.bell t = false →
    ∃ e, s.execs.getLast? = some e ∧ s.data = e.dataAfter
  woken : s.Woken t c → s.ipc.rung c = true ∧ s.Idle t ∧
    ∃ e, s.execs.getLast? = some e ∧ s.res = e.res

/-- A thread whose command was executed and answered. -/
structure Answered (t : PciefTgt) (s : MboxSys) (c : Nat) (cmd : TgtCmd) : Prop where
  idle : s.Idle t
  ended : (s.ipc.pc c).Ended
  mine : s.Mine c cmd
  last : ∃ e, s.execs.getLast? = some e ∧ s.data = e.dataAfter ∧ s.res = e.res

/-- Where a thread is inside a command, by the steps that are left: it stores the
data and the command, is in the ioctl, loads and compares the response, or
loads the data.  What is stored or loaded so far is said by what is pending. -/
inductive Stage (mbox : Bool) (t : PciefTgt) (s : MboxSys) (c : Nat) (cmd : TgtCmd)
    (ops : List MboxOp) : Prop
  | storing (ps : List Piece) (ws : List TgtWord)
      (hops : ops = ps.map .storeData ++ ws.map .storeCmd ++ .ioctl :: .join :: cmd.loads)
      (hidle : s.Idle t) (hended : (s.ipc.pc c).Ended)
      (hdata : Pending (fun j => cmd.out.getD j 0) s.data ps cmd.out.length)
      (hcmd : ws.foldl cmd.words.copyWord s.cmd = cmd.words)
  | inIoctl (hops : ops = .join :: cmd.loads) (h : InIoctl mbox t s c cmd)
  | loading (ws : List TgtWord)
      (hops : ops = ws.map .loadRes ++ .check :: (pciefPieces cmd.inLen).map .loadData)
      (h : Answered t s c cmd) (hres : ws.foldl s.res.copyWord (s.th c).res = s.res)
  | reading (ps : List Piece) (hops : ops = ps.map .loadData) (h : Answered t s c cmd)
      (hres : (s.th c).res = s.res) (hbuf : Pending s.data (s.th c).buf ps cmd.inLen)

/-- **The invariant** of the runs in which commands exclude each other: the
target, all threads outside a command, and the one inside, if there is one, at
its stage. -/
structure Inv (mbox : Bool) (t : PciefTgt) (s : MboxSys) : Prop where
  log : s.LogOk t
  threads : ∀ c, s.ThreadOk c
  outside : ∀ c, c ∉ s.inside → (s.ipc.pc c).Ended ∧ ∀ cmd ops, (s.th c).pc ≠ .run cmd ops
  inside : s.inside = [] ∨ ∃ c cmd ops,
    s.inside = [c] ∧ (s.th c).pc = .run cmd ops ∧ Stage mbox t s c cmd ops

/-! ## what a step leaves alone -/

/-- A list keeps its elements when it grows. -/
theorem getElem?_of_grown {α : Type} {xs ys : List α} {i : Nat} {x : α} (h : xs <+: ys)
    (hx : xs[i]? = some x) : ys[i]? = some x := by
  obtain ⟨zs, rfl⟩ := h
  obtain ⟨hi, _⟩ := List.getElem?_eq_some_iff.mp hx
  rw [List.getElem?_append_left hi, hx]

/-- What was matched stays matched. -/
theorem Matched.frame {r : TgtRecord} (h : s.Matched c r) (hsent : s.sent <+: s'.sent)
    (hexecs : s.execs <+: s'.execs) : s'.Matched c r := by
  obtain ⟨hidx, e, he, hof, hans⟩ := h
  exact ⟨getElem?_of_grown hsent hidx, e, getElem?_of_grown hexecs he, hof, hans⟩

theorem ThreadOk.frame (h : s.ThreadOk c) (hleft : (s'.th c).left = (s.th c).left)
    (hfin : (s'.th c).finished = (s.th c).finished) (hbase : (s'.th c).base = (s.th c).base)
    (hcall : (s'.th c).call = (s.th c).call) (hret : (s'.th c).ret = (s.th c).ret)
    (hsent : s.sent <+: s'.sent) (hexecs : s.execs <+: s'.execs) : s'.ThreadOk c := by
  constructor
  · rw [hbase, hfin]
    exact h.base
  · rw [hleft, hbase, hfin, hcall]
    exact h.left
  · rw [hleft, hret]
    exact h.ret
  · rw [hret, hbase, hfin, hcall]
    exact h.call
  · rw [hfin]
    exact fun r hr => (h.matched r hr).frame hsent hexecs
  · rw [hfin]
    exact h.apart

theorem LogOk.frame (h : s.LogOk t) (hbell : s'.ipc.bell t = s.ipc.bell t)
    (hserving : s'.ipc.serving t = s.ipc.serving t) (hsent : s'.sent = s.sent)
    (hexecs : s'.execs = s.execs) (hmem : s'.mem = s.mem) (hput : s'.resPut = s.resPut)
    (hres : s'.res = s.res) (hmb : s.ipc.bell t = true → s'.cmd = s.cmd ∧ s'.data = s.data) :
    s'.LogOk t := by
  constructor
  · rw [hbell, hserving, hsent]
    intro hb
    obtain ⟨hserv, p, hp, hholds⟩ := h.bell hb
    obtain ⟨hcmd, hdata⟩ := hmb hb
    refine ⟨hserv, p, hp, ?_⟩
    rwa [Holds, hcmd, hdata]
  · rw [hserving, hexecs, hput, hres]
    exact h.serving
  · rw [hbell, hsent, hexecs]
    exact h.length
  · rw [hexecs, hsent]
    exact h.once
  · rw [hexecs, hmem]
    exact h.memory
  · rw [hexecs]
    exact h.chained

/-- What the threads do on their own is not seen by the target. -/
theorem LogOk.thread (h : s.LogOk t) (th : Nat → TgtThread) (inside : List Nat) :
    LogOk t { s with th := th, inside := inside } :=
  h.frame rfl rfl rfl rfl rfl rfl rfl fun _ => ⟨rfl, rfl⟩

theorem Mine.frame (h : s.Mine c cmd) (hidx : (s'.th c).idx = (s.th c).idx)
    (hfin : (s'.th c).finished = (s.th c).finished) (hsent : s'.sent = s.sent) :
    s'.Mine c cmd := by
  constructor
  · rw [hsent]
    exact h.last
  · rw [hidx, hsent]
    exact h.idx
  · rw [hidx, hfin]
    exact h.later

/-- The one thread inside a command takes a step and stays inside. -/
theorem Inv.stay {ops : List MboxOp} (h : Inv mbox t s) (hin : s.inside = [c])
    (hin' : s'.inside = [c]) (hlog : s'.LogOk t) (hth : ∀ d ≠ c, s'.th d = s.th d)
    (hipc : ∀ d ≠ c, s'.ipc.pc d = s.ipc.pc d) (hsent : s.sent <+: s'.sent)
    (hexecs : s'.execs = s.execs) (hc : s'.ThreadOk c) (hpc : (s'.th c).pc = .run cmd ops)
    (hstage : Stage mbox t s' c cmd ops) : Inv mbox t s' := by
  refine ⟨hlog, fun d => ?_, fun d hd => ?_, .inr ⟨c, cmd, ops, hin', hpc, hstage⟩⟩
  · by_cases hdc : d = c
    · exact hdc ▸ hc
    · have heq := hth d hdc
      apply (h.threads d).frame <;> simp [heq, hsent, hexecs]
  · have hdc : d ≠ c := by
      rintro rfl
      simp [hin'] at hd
    rw [hipc d hdc, hth d hdc]
    exact h.outside d (by simp [hin, hdc])

/-- A thread outside ends up outside again, or the one inside leaves. -/
theorem Inv.leave (h : Inv mbox t s) (hin : ∀ d ∈ s.inside, d = c) (hin' : s'.inside = [])
    (hlog : s'.LogOk t) (hth : ∀ d ≠ c, s'.th d = s.th d) (hipc : s'.ipc = s.ipc)
    (hsent : s'.sent = s.sent) (hexecs : s'.execs = s.execs) (hc : s'.ThreadOk c)
    (hended : (s.ipc.pc c).Ended) (hpc : ∀ cmd ops, (s'.th c).pc ≠ .run cmd ops) :
    Inv mbox t s' := by
  refine ⟨hlog, fun d => ?_, fun d _ => ?_, .inl hin'⟩
  · by_cases hdc : d = c
    · exact hdc ▸ hc
    · have heq := hth d hdc
      apply (h.threads d).frame <;> simp [heq, hsent, hexecs]
  · rw [hipc]
    by_cases hdc : d = c
    · subst hdc
      exact ⟨hended, hpc⟩
    · rw [hth d hdc]
      exact h.outside d fun hd => hdc (hin d hd)

/-- The target takes a step. -/
theorem Inv.target (h : Inv mbox t s) (hlog : s'.LogOk t) (hin : s'.inside = s.inside)
    (hth : s'.th = s.th) (hipc : s'.ipc.pc = s.ipc.pc) (hsent : s'.sent = s.sent)
    (hexecs : s.execs <+: s'.execs)
    (hstage : ∀ c cmd ops, Stage mbox t s c cmd ops → Stage mbox t s' c cmd ops) :
    Inv mbox t s' := by
  refine ⟨hlog, fun d => ?_, ?_, ?_⟩
  · apply (h.threads d).frame <;> simp [hth, hsent, hexecs]
  · rw [hin, hth, hipc]
    exact h.outside
  · rw [hin, hth]
    rcases h.inside with hnil | ⟨c, cmd, ops, hc, hpc, hs⟩
    · exact .inl hnil
    · exact .inr ⟨c, cmd, ops, hc, hpc, hstage c cmd ops hs⟩

/-! ## the steps of a thread -/

/-- The one thread that has steps left of a command is inside. -/
theorem Inv.stage {ops : List MboxOp} (h : Inv mbox t s) (hpc : (s.th c).pc = .run cmd ops) :
    s.inside = [c] ∧ Stage mbox t s c cmd ops := by
  by_cases hc : c ∈ s.inside
  · rcases h.inside with hnil | ⟨d, cmd', ops', hd, hpc', hstage⟩
    · simp [hnil] at hc
    · obtain rfl : c = d := by simpa [hd] using hc
      rw [hpc] at hpc'
      cases hpc'
      exact ⟨hd, hstage⟩
  · exact absurd hpc ((h.outside c hc).2 cmd ops)

/-- A step of the thread that leaves the target, and what it has done, alone. -/
theorem Inv.local {op : MboxOp} {ops : List MboxOp} {th : TgtThread} {s' : MboxSys}
    (h : Inv mbox t s) (hpc : (s.th c).pc = .run cmd (op :: ops))
    (hs' : s'.th = Function.update s.th c th)
    (hth : th = { s.th c with pc := .run cmd ops, res := th.res, buf := th.buf })
    (hin : s'.inside = s.inside) (hipc : ∀ d ≠ c, s'.ipc.pc d = s.ipc.pc d)
    (hsent : s'.sent = s.sent) (hexecs : s'.execs = s.execs) (hlog : s'.LogOk t)
    (hstage : Stage mbox t s' c cmd ops) : Inv mbox t s' := by
  have hthc : s'.th c = th := by rw [hs', Function.update_self]
  refine h.stay (h.stage hpc).1 (hin.trans (h.stage hpc).1) hlog ?_ hipc ?_ hexecs ?_ ?_ hstage
  · intro d hd
    rw [hs', Function.update_of_ne hd]
  · rw [hsent]
  · apply (h.threads c).frame
    · rw [hthc, hth]
      simp [TgtThread.left, hpc]
    · rw [hthc, hth]
    · rw [hthc, hth]
    · rw [hthc, hth]
    · rw [hthc, hth]
    · rw [hsent]
    · rw [hexecs]
  · rw [hthc, hth]

/-- The next step is a store of data. -/
theorem Stage.storeData {p : Piece} {ops : List MboxOp}
    (h : Stage mbox t s c cmd (.storeData p :: ops)) :
    s.Idle t ∧ Stage mbox t
      { s.setTh c { s.th c with pc := .run cmd ops } with
        data := put (fun j => cmd.out.getD j 0) s.data p } c cmd ops := by
  cases h with
  | storing ps ws hops hidle hended hdata hcmd =>
      cases ps with
      | nil => cases ws <;> simp at hops
      | cons q ps =>
          obtain ⟨hq, hrest⟩ := List.cons.inj hops
          cases hq
          exact ⟨hidle, .storing ps ws hrest hidle hended hdata.put hcmd⟩
  | inIoctl hops => simp at hops
  | loading ws hops => cases ws <;> simp at hops
  | reading ps hops => cases ps <;> simp at hops

/-- The next step is a store of a word of the command. -/
theorem Stage.storeCmd {w : TgtWord} {ops : List MboxOp}
    (h : Stage mbox t s c cmd (.storeCmd w :: ops)) :
    s.Idle t ∧ Stage mbox t
      { s.setTh c { s.th c with pc := .run cmd ops } with cmd := cmd.words.copyWord s.cmd w }
      c cmd ops := by
  cases h with
  | storing ps ws hops hidle hended hdata hcmd =>
      cases ps with
      | nil =>
          cases ws with
          | nil => simp at hops
          | cons v ws =>
              obtain ⟨hv, hrest⟩ := List.cons.inj hops
              cases hv
              exact ⟨hidle, .storing [] ws hrest hidle hended hdata hcmd⟩
      | cons q ps => simp at hops
  | inIoctl hops => simp at hops
  | loading ws hops => cases ws <;> simp at hops
  | reading ps hops => cases ps <;> simp at hops

/-- The next step is the ioctl: the mailbox holds the command. -/
theorem Stage.ioctl {ops : List MboxOp} (h : Stage mbox t s c cmd (.ioctl :: ops)) :
    ops = .join :: cmd.loads ∧ s.Idle t ∧ s.Holds cmd := by
  cases h with
  | storing ps ws hops hidle hended hdata hcmd =>
      cases ps with
      | nil =>
          cases ws with
          | nil => exact ⟨(List.cons.inj hops).2, hidle, hcmd, fun j hj => hdata.eq hj⟩
          | cons v ws => simp at hops
      | cons q ps => simp at hops
  | inIoctl hops => simp at hops
  | loading ws hops => cases ws <;> simp at hops
  | reading ps hops => cases ps <;> simp at hops

/-- The next step is the end of the ioctl. -/
theorem Stage.join {ops : List MboxOp} (h : Stage mbox t s c cmd (.join :: ops)) :
    ops = cmd.loads ∧ InIoctl mbox t s c cmd := by
  cases h with
  | storing ps ws hops => cases ps <;> cases ws <;> simp at hops
  | inIoctl hops h => exact ⟨(List.cons.inj hops).2, h⟩
  | loading ws hops => cases ws <;> simp at hops
  | reading ps hops => cases ps <;> simp at hops

/-- An ioctl that reports success has seen the response to the command. -/
theorem InIoctl.answered (h : InIoctl mbox t s c cmd) (hpc : s.ipc.pc c = .returned true) :
    Answered t s c cmd := by
  obtain ⟨hrung, hidle, e, he, hres⟩ := h.woken (.inr (.inr hpc))
  obtain ⟨e', he', hdata⟩ := h.out hrung hidle.1
  obtain rfl : e = e' := Option.some.inj (he ▸ he')
  exact ⟨hidle, hpc ▸ trivial, h.mine hrung, e, he, hdata, hres⟩

/-- A thread whose command was answered changes its locals. -/
theorem Answered.local {th : TgtThread} (h : Answered t s c cmd) (hidx : th.idx = (s.th c).idx)
    (hfin : th.finished = (s.th c).finished) : Answered t (s.setTh c th) c cmd :=
  ⟨h.idle, h.ended, h.mine.frame (by simpa using hidx) (by simpa using hfin) rfl,
    h.last⟩

/-- The next step is a load of a word of the response. -/
theorem Stage.loadRes {w : TgtWord} {ops : List MboxOp}
    (h : Stage mbox t s c cmd (.loadRes w :: ops)) :
    Stage mbox t
      (s.setTh c { s.th c with pc := .run cmd ops, res := s.res.copyWord (s.th c).res w })
      c cmd ops := by
  cases h with
  | storing ps ws hops => cases ps <;> cases ws <;> simp at hops
  | inIoctl hops => simp at hops
  | loading ws hops h hres =>
      cases ws with
      | nil => simp at hops
      | cons v ws =>
          obtain ⟨hv, hrest⟩ := List.cons.inj hops
          cases hv
          exact .loading ws hrest (h.local rfl rfl) (by simpa using hres)
  | reading ps hops => cases ps <;> simp at hops

/-- The next step is the comparison: the response is loaded. -/
theorem Stage.check {ops : List MboxOp} (h : Stage mbox t s c cmd (.check :: ops)) :
    (s.ipc.pc c).Ended ∧ Stage mbox t (s.setTh c { s.th c with pc := .run cmd ops }) c cmd ops := by
  cases h with
  | storing ps ws hops => cases ps <;> cases ws <;> simp at hops
  | inIoctl hops => simp at hops
  | loading ws hops h hres =>
      cases ws with
      | nil =>
          refine ⟨h.ended,
            .reading (pciefPieces cmd.inLen) (List.cons.inj hops).2 (h.local rfl rfl) ?_ ?_⟩
          · simpa using hres
          · exact (covers_pciefPieces cmd.inLen).pending _ _
      | cons v ws => simp at hops
  | reading ps hops => cases ps <;> simp at hops

/-- The next step is a load of data. -/
theorem Stage.loadData {p : Piece} {ops : List MboxOp}
    (h : Stage mbox t s c cmd (.loadData p :: ops)) :
    Stage mbox t
      (s.setTh c { s.th c with pc := .run cmd ops, buf := put s.data (s.th c).buf p }) c cmd ops := by
  cases h with
  | storing ps ws hops => cases ps <;> cases ws <;> simp at hops
  | inIoctl hops => simp at hops
  | loading ws hops => cases ws <;> simp at hops
  | reading ps hops h hres hbuf =>
      cases ps with
      | nil => simp at hops
      | cons q ps =>
          obtain ⟨hq, hrest⟩ := List.cons.inj hops
          cases hq
          refine .reading ps hrest (h.local rfl rfl) ?_ ?_
          · simpa using hres
          · simpa using hbuf.put

/-- The ioctl for the target is entered. -/
theorem call_b0 {i i' : IpcSys} (h : i.step mbox (.call c t.b0) = some i') :
    i' = { i.setPc c (.entered t) with
      rung := Function.update i.rung c false, answered := Function.update i.answered c false } := by
  simp only [IpcSys.step] at h
  split at h
  · cases t <;> cases h <;> rfl
  · cases h

/-- A call that fails leaves the target alone. -/
theorem Inv.fail {ops : List MboxOp} (h : Inv mbox t s) (hpc : (s.th c).pc = .run cmd ops)
    (hended : (s.ipc.pc c).Ended) : Inv mbox t (s.fail c) := by
  obtain ⟨hin, _⟩ := h.stage hpc
  refine h.leave (by simp [hin]) (by simp [MboxSys.fail, hin]) ?_ ?_ rfl rfl rfl ?_ hended ?_
  · exact h.log.thread _ _
  · intro d hd
    simp [MboxSys.fail, hd]
  · have hc := h.threads c
    constructor
    · simpa [MboxSys.fail] using hc.base
    · simp [MboxSys.fail, TgtThread.left]
    · simp [MboxSys.fail, TgtThread.left]
    · simp [MboxSys.fail]
    · intro r hr
      exact (hc.matched r (by simpa [MboxSys.fail] using hr)).frame (List.prefix_rfl)
        (List.prefix_rfl)
    · simpa [MboxSys.fail] using hc.apart
  · simp [MboxSys.fail]

/-- A step inside a command keeps the invariant. -/
theorem inv_op {op : MboxOp} {ops : List MboxOp} (h : Inv mbox t s)
    (hpc : (s.th c).pc = .run cmd (op :: ops)) (hs : doOp mbox t s c cmd ops op = some s') :
    Inv mbox t s' := by
  have hstage := (h.stage hpc).2
  cases op with
  | storeData p =>
      cases hs
      obtain ⟨hidle, hstage⟩ := hstage.storeData
      refine h.local hpc rfl rfl rfl (fun _ _ => rfl) rfl rfl ?_ hstage
      exact h.log.frame rfl rfl rfl rfl rfl rfl rfl fun hb => by simp [hidle.1] at hb
  | storeCmd w =>
      cases hs
      obtain ⟨hidle, hstage⟩ := hstage.storeCmd
      refine h.local hpc rfl rfl rfl (fun _ _ => rfl) rfl rfl ?_ hstage
      exact h.log.frame rfl rfl rfl rfl rfl rfl rfl fun hb => by simp [hidle.1] at hb
  | ioctl =>
      obtain ⟨ipc, hipc, rfl⟩ := Option.map_eq_some_iff.mp hs
      obtain ⟨hops, hidle, hholds⟩ := hstage.ioctl
      obtain rfl := call_b0 hipc
      refine h.local hpc rfl rfl rfl ?_ rfl rfl ?_ ?_
      · intro d hd
        simp [IpcSys.setPc, hd]
      · exact h.log.frame rfl rfl rfl rfl rfl rfl rfl fun _ => ⟨rfl, rfl⟩
      · refine .inIoctl hops ?_
        constructor
        · simp [IpcSys.setPc, IpcPc.On]
        · simp
        · exact fun _ => ⟨hidle, hholds⟩
        · simp
        · simp
        · simp [Woken, IpcSys.setPc]
  | join =>
      obtain ⟨hops, hioctl⟩ := hstage.join
      simp only [doOp] at hs
      split at hs
      · next hret =>
          cases hs
          refine h.local hpc rfl rfl rfl (fun _ _ => rfl) rfl rfl ?_ ?_
          · exact h.log.thread _ _
          · exact .loading tgtWords hops ((hioctl.answered hret).local rfl rfl)
              (PciefTgtCmdRes.copyWord_all _ _)
      · next hret =>
          cases hs
          exact h.fail hpc (hret ▸ trivial)
      · contradiction
  | loadRes w =>
      cases hs
      refine h.local hpc rfl rfl rfl (fun _ _ => rfl) rfl rfl ?_ hstage.loadRes
      exact h.log.thread _ _
  | check =>
      obtain ⟨hended, hstage⟩ := hstage.check
      simp only [doOp, Option.some.injEq] at hs
      split at hs
      · exact hs ▸ h.fail hpc hended
      · subst hs
        refine h.local hpc rfl rfl rfl (fun _ _ => rfl) rfl rfl ?_ hstage
        exact h.log.thread _ _
  | loadData p =>
      cases hs
      refine h.local hpc rfl rfl rfl (fun _ _ => rfl) rfl rfl ?_ hstage.loadData
      exact h.log.thread _ _

/-! ## calls and commands -/

/-- What another thread does outside its commands is not seen inside one. -/
theorem Stage.other {d : Nat} {ops : List MboxOp} {th : TgtThread} (h : Stage mbox t s d cmd ops)
    (hd : d ≠ c) : Stage mbox t (s.setTh c th) d cmd ops := by
  have hth : (s.setTh c th).th d = s.th d := setTh_of_ne hd s th
  have hmine (hm : s.Mine d cmd) : (s.setTh c th).Mine d cmd :=
    hm.frame (by rw [hth]) (by rw [hth]) rfl
  have hans (ha : Answered t s d cmd) : Answered t (s.setTh c th) d cmd :=
    ⟨ha.idle, ha.ended, hmine ha.mine, ha.last⟩
  cases h with
  | storing ps ws hops hidle hended hdata hcmd => exact .storing ps ws hops hidle hended hdata hcmd
  | inIoctl hops h =>
      exact .inIoctl hops ⟨h.on, h.early, h.quiet, fun hr => hmine (h.mine hr), h.out, h.woken⟩
  | loading ws hops h hres => exact .loading ws hops (hans h) (by rw [hth]; exact hres)
  | reading ps hops h hres hbuf =>
      exact .reading ps hops (hans h) (by rw [hth]; exact hres) (by rw [hth]; exact hbuf)

/-- A thread that is outside its commands, and stays there. -/
theorem Inv.outer {th : TgtThread} (h : Inv mbox t s) (hpc : ∀ cmd ops, (s.th c).pc ≠ .run cmd ops)
    (hpc' : ∀ cmd ops, th.pc ≠ .run cmd ops) (hc : (s.setTh c th).ThreadOk c) :
    Inv mbox t (s.setTh c th) := by
  have hth {d : Nat} (hd : d ≠ c) : (s.setTh c th).th d = s.th d := setTh_of_ne hd s th
  refine ⟨?_, fun d => ?_, fun d hd => ?_, ?_⟩
  · exact h.log.thread _ _
  · by_cases hdc : d = c
    · exact hdc ▸ hc
    · apply (h.threads d).frame <;> simp [setTh, hdc]
  · have hout := h.outside d hd
    by_cases hdc : d = c
    · subst hdc
      exact ⟨hout.1, by simpa using hpc'⟩
    · rw [hth hdc]
      exact hout
  · rcases h.inside with hnil | ⟨d, cmd, ops, hin, hd, hstage⟩
    · exact .inl hnil
    · have hdc : d ≠ c := by
        rintro rfl
        exact hpc cmd ops hd
      exact .inr ⟨d, cmd, ops, hin, by rw [hth hdc]; exact hd, hstage.other hdc⟩

theorem inv_start {call : List TgtCmd} (h : Inv mbox t s) (hpc : (s.th c).pc = .idle) :
    Inv mbox t (s.setTh c { s.th c with
      pc := .next, call := call, todo := call, base := (s.th c).finished.length, ret := none }) := by
  refine h.outer (by simp [hpc]) (by simp) ?_
  have hc := h.threads c
  constructor
  · simp
  · simp [TgtThread.left]
  · simp
  · simp
  · intro r hr
    exact (hc.matched r (by simpa using hr)).frame List.prefix_rfl List.prefix_rfl
  · simpa using hc.apart

theorem inv_ret (h : Inv mbox t s) (hpc : (s.th c).pc = .next) (htodo : (s.th c).todo = []) :
    Inv mbox t (s.setTh c { s.th c with pc := .idle, ret := some 0 }) := by
  refine h.outer (by simp [hpc]) (by simp) ?_
  have hc := h.threads c
  have hleft := hc.left [] (by simp [TgtThread.left, hpc, htodo])
  constructor
  · simpa using hc.base
  · simp [TgtThread.left]
  · simp [TgtThread.left]
  · simpa using hleft
  · intro r hr
    exact (hc.matched r (by simpa using hr)).frame List.prefix_rfl List.prefix_rfl
  · simpa using hc.apart

theorem inv_begin {todo : List TgtCmd} (h : Inv mbox t s) (hpc : (s.th c).pc = .next)
    (htodo : (s.th c).todo = cmd :: todo) (hin : s.inside = []) (hidle : s.Idle t) :
    Inv mbox t { s.setTh c { s.th c with pc := .run cmd cmd.ops, todo := todo, res := .zero } with
      inside := c :: s.inside } := by
  have hout := h.outside c (by simp [hin])
  refine ⟨?_, fun d => ?_, fun d hd => ?_, .inr ⟨c, cmd, cmd.ops, by simp [hin], by simp, ?_⟩⟩
  · exact h.log.thread _ _
  · apply (h.threads d).frame
    all_goals by_cases hdc : d = c
    all_goals simp [setTh, TgtThread.left, hdc, hpc, htodo]
  · have hdc : d ≠ c := by
      rintro rfl
      simp at hd
    have hd' := h.outside d (by simp [hin])
    simpa [setTh, hdc] using hd'
  · exact .storing (pciefPieces cmd.out.length) tgtWords rfl hidle hout.1
      ((covers_pciefPieces _).pending _ _) (PciefTgtCmdRes.copyWord_all _ _)

/-- What a thread got for its command is what the command's execution gave. -/
theorem Answered.matched {val : U32} {data : Nat → Byte} (h : Answered t s c cmd) (hlog : s.LogOk t)
    (hval : val = s.res.head.para0) (hdata : ∀ j < cmd.inLen, data j = s.data j) :
    s.Matched c ⟨cmd, val, data, (s.th c).idx⟩ := by
  obtain ⟨e, he, hout, hres⟩ := h.last
  have hlen := hlog.length
  rw [h.idle.1] at hlen
  have hidx := h.mine.idx
  have hpos : (s.th c).idx = s.execs.length - 1 := by simp at hlen; omega
  have hpos' : (s.th c).idx = s.sent.length - 1 := by omega
  have hexec : s.execs[(s.th c).idx]? = some e := by rw [hpos, ← List.getLast?_eq_getElem?, he]
  have hsent : s.sent[(s.th c).idx]? = some (c, cmd) := by
    rw [hpos', ← List.getLast?_eq_getElem?, h.mine.last]
  obtain ⟨p, hp, hof⟩ := hlog.once _ e hexec
  obtain rfl : p = (c, cmd) := Option.some.inj (hp.symm.trans hsent)
  refine ⟨hsent, e, hexec, hof, ?_⟩
  unfold TgtRecord.Answers
  cases cmd with
  | rd32 addr =>
      show val = _
      rw [hval, hres, e.res_rd32 hof]
  | rd addr len =>
      intro j hj
      show data j = _
      rw [hdata j hj, hout, TgtExec.dataAfter_rd hof hj]
  | wr32 | wr => trivial

theorem inv_endCmd (h : Inv mbox t s) (hpc : (s.th c).pc = .run cmd []) :
    Inv mbox t
      { s.setTh c { s.th c with
          pc := .next
          finished := (s.th c).finished ++
            [⟨cmd, (s.th c).res.head.para0, (s.th c).buf, (s.th c).idx⟩] } with
        inside := s.inside.erase c } := by
  obtain ⟨hin, hstage⟩ := h.stage hpc
  cases hstage with
  | storing ps ws hops => cases ps <;> cases ws <;> simp at hops
  | inIoctl hops => simp at hops
  | loading ws hops => cases ws <;> simp at hops
  | reading ps hops hans hres hbuf =>
      obtain rfl : ps = [] := List.map_eq_nil_iff.mp hops.symm
      have hc := h.threads c
      have hmatched := hans.matched h.log (congrArg (fun r => r.head.para0) hres) fun j hj => hbuf.eq hj
      refine h.leave (by simp [hin]) (by simp [hin]) ?_ ?_ rfl rfl rfl ?_ hans.ended ?_
      · exact h.log.thread _ _
      · intro d hd
        simp [hd]
      · have hleft := hc.left (cmd :: (s.th c).todo) (by simp [TgtThread.left, hpc])
        have hdrop (r : TgtRecord) : ((s.th c).finished ++ [r]).drop (s.th c).base =
            (s.th c).finished.drop (s.th c).base ++ [r] := List.drop_append_of_le_length hc.base
        constructor
        · have hbase := hc.base
          simp
          omega
        · intro cmds hcmds
          obtain rfl : (s.th c).todo = cmds := by simpa [TgtThread.left] using hcmds
          simpa [hdrop] using hleft
        · intro _
          simpa using hc.ret (by simp [TgtThread.left, hpc])
        · intro hret
          have hnone : (s.th c).ret = none := hc.ret (by simp [TgtThread.left, hpc])
          simp [hnone] at hret
        · intro r hr
          have hr : r ∈ (s.th c).finished ∨
              r = ⟨cmd, (s.th c).res.head.para0, (s.th c).buf, (s.th c).idx⟩ := by
            simpa using hr
          rcases hr with hr | rfl
          · exact (hc.matched r hr).frame List.prefix_rfl List.prefix_rfl
          · exact hmatched.frame List.prefix_rfl List.prefix_rfl
        · have hlater := hans.mine.later
          simpa [List.pairwise_append] using ⟨hc.apart, hlater⟩
      · simp

/-! ## the ioctl -/

/-- A thread that is in the ioctl is the one inside a command. -/
theorem Inv.inIoctl (h : Inv mbox t s) (hpc : ¬ (s.ipc.pc c).Ended) :
    ∃ cmd, s.inside = [c] ∧ (s.th c).pc = .run cmd (.join :: cmd.loads) ∧
      InIoctl mbox t s c cmd := by
  by_cases hc : c ∈ s.inside
  · rcases h.inside with hnil | ⟨d, cmd, ops, hd, hrun, hstage⟩
    · simp [hnil] at hc
    · obtain rfl : c = d := by simpa [hd] using hc
      cases hstage with
      | storing _ _ _ _ hended => exact absurd hended hpc
      | inIoctl hops hioctl => exact ⟨cmd, hd, hops ▸ hrun, hioctl⟩
      | loading _ _ hans => exact absurd hans.ended hpc
      | reading _ _ hans => exact absurd hans.ended hpc
  · exact absurd (h.outside c hc).1 hpc

/-- Its ioctl is about the target. -/
theorem Inv.on {p : IpcPc} (h : Inv mbox t s) (hpc : s.ipc.pc c = p) (hp : ¬ p.Ended) : p.On t := by
  subst hpc
  obtain ⟨_, _, _, hioctl⟩ := h.inIoctl hp
  exact hioctl.on

/-- A step of the ioctl that rings no doorbell. -/
theorem Inv.moveIpc {p q : IpcPc} {ipc : IpcSys} (h : Inv mbox t s) (hpc : s.ipc.pc c = q)
    (hq : ¬ q.Ended) (hpc' : ipc.pc = Function.update s.ipc.pc c p) (hbell : ipc.bell = s.ipc.bell)
    (hserving : ipc.serving = s.ipc.serving) (hrung : ipc.rung = s.ipc.rung) (hon : q.On t → p.On t)
    (hearly : p.Early mbox → q.Early mbox)
    (hwoken : q.On t → Woken t { s with ipc := ipc } c → s.Woken t c) :
    Inv mbox t { s with ipc := ipc } := by
  subst hpc
  obtain ⟨cmd, hin, hrun, hioctl⟩ := h.inIoctl hq
  refine h.stay hin hin ?_ (fun _ _ => rfl) ?_ List.prefix_rfl rfl ?_ hrun ?_
  · exact h.log.frame (by rw [hbell]) (by rw [hserving]) rfl rfl rfl rfl rfl fun _ => ⟨rfl, rfl⟩
  · intro d hd
    simp [hpc', hd]
  · exact (h.threads c).frame rfl rfl rfl rfl rfl List.prefix_rfl List.prefix_rfl
  · have hidle (hi : s.Idle t) : Idle t { s with ipc := ipc } := by
      rwa [Idle, hbell, hserving]
    refine .inIoctl rfl ?_
    constructor
    · simpa [hpc'] using hon hioctl.on
    · simp only [hpc', Function.update_self, hrung]
      exact fun he => hioctl.early (hearly he)
    · simp only [hrung]
      exact fun hr => ⟨hidle (hioctl.quiet hr).1, (hioctl.quiet hr).2⟩
    · simp only [hrung]
      exact fun hr => (hioctl.mine hr).frame rfl rfl rfl
    · simp only [hrung, hbell]
      exact hioctl.out
    · intro hw
      obtain ⟨hr, hi, hres⟩ := hioctl.woken (hwoken hioctl.on hw)
      exact ⟨by rwa [hrung], hidle hi, hres⟩

/-- A step of the ioctl that rings the doorbell. -/
theorem Inv.ringIpc {p q : IpcPc} {ipc : IpcSys} (h : Inv mbox t s) (hpc : s.ipc.pc c = q)
    (hq : ¬ q.Ended) (hipc : ipc = (s.ipc.setPc c p).ring c t) (hearly : q.Early mbox)
    (hon : p.On t) (hlate : ¬ p.Early mbox) (hwoken : ¬ Woken t { s with ipc := ipc } c) :
    Inv mbox t (noteSent { s with ipc := ipc } c) := by
  subst hpc
  obtain ⟨cmd, hin, hrun, hioctl⟩ := h.inIoctl hq
  obtain ⟨hidle, hholds⟩ := hioctl.quiet (hioctl.early hearly)
  have hlen := h.log.length
  rw [hidle.1] at hlen
  have hnote : noteSent { s with ipc := ipc } c =
      { s.setTh c { s.th c with idx := s.sent.length } with
        ipc := ipc, sent := s.sent ++ [(c, cmd)] } := by
    simp [noteSent, hrun, setTh]
  rw [hnote]
  subst hipc
  refine h.stay hin hin ?_ ?_ ?_ (List.prefix_append _ _) rfl ?_ (by simpa using hrun) ?_
  · constructor
    · exact fun _ => ⟨hidle.2, (c, cmd), by simp, hholds⟩
    · intro hserv
      exact absurd hserv (by simp [IpcSys.ring, IpcSys.setPc, hidle.2])
    · simpa [IpcSys.ring, IpcSys.setPc, setTh] using hlen
    · intro i e he
      obtain ⟨q, hq, hof⟩ := h.log.once i e he
      exact ⟨q, getElem?_of_grown (List.prefix_append _ _) hq, hof⟩
    · exact h.log.memory
    · exact h.log.chained
  · intro d hd
    simp [hd]
  · intro d hd
    simp [IpcSys.ring, IpcSys.setPc, hd]
  · refine (h.threads c).frame ?_ ?_ ?_ ?_ ?_ (List.prefix_append _ _) List.prefix_rfl
    all_goals simp [TgtThread.left]
  · refine .inIoctl rfl ?_
    constructor
    · simpa [IpcSys.ring, IpcSys.setPc] using hon
    · exact fun he => absurd (by simpa [IpcSys.ring, IpcSys.setPc] using he) hlate
    · simp [IpcSys.ring]
    · intro _
      constructor
      · simp
      · simp
      · intro r hr
        obtain ⟨hidx, _⟩ := (h.threads c).matched r (by simpa using hr)
        simpa using (List.getElem?_eq_some_iff.mp hidx).1
    · simp [IpcSys.ring]
    · exact fun hw => absurd hw hwoken

/-- The commands beside the ioctl complete nothing: `MT_IOCTL_WAIT_INT` takes a
count, and `MT_IOCTL_IRQ_INIT` empties completions. -/
theorem Inv.irqStep {irq : IrqDev} {irqOps : List IrqDev.IrqOp} (h : Inv mbox t s)
    (hle : irq.intDone t.intSrc ≤ s.ipc.done t) :
    Inv mbox t { s with ipc := { s.ipc with irq := irq, irqOps := irqOps } } := by
  refine h.target ?_ rfl rfl rfl rfl List.prefix_rfl ?_
  · exact h.log.frame rfl rfl rfl rfl rfl rfl rfl fun _ => ⟨rfl, rfl⟩
  · intro c cmd ops hstage
    cases hstage with
    | storing ps ws hops hidle hended hdata hcmd => exact .storing ps ws hops hidle hended hdata hcmd
    | inIoctl hops h =>
        refine .inIoctl hops
          ⟨h.on, h.early, h.quiet, fun hr => (h.mine hr).frame rfl rfl rfl, h.out, ?_⟩
        rintro (⟨hpc, hdone⟩ | hover)
        · exact h.woken (.inl ⟨hpc, fun hzero => hdone (Nat.le_zero.mp (hzero ▸ hle))⟩)
        · exact h.woken (.inr hover)
    | loading ws hops h hres =>
        exact .loading ws hops ⟨h.idle, h.ended, h.mine.frame rfl rfl rfl, h.last⟩ hres
    | reading ps hops h hres hbuf =>
        exact .reading ps hops ⟨h.idle, h.ended, h.mine.frame rfl rfl rfl, h.last⟩ hres hbuf

/-- A step of the ioctl keeps the invariant. -/
theorem inv_ipc {a : IpcAct} {ipc : IpcSys} (h : Inv mbox t s) (ha : a.Inside)
    (hs : s.ipc.step mbox a = some ipc) :
    Inv mbox t (match rings mbox t a with
      | some c => noteSent { s with ipc := ipc } c
      | none => { s with ipc := ipc }) := by
  cases IpcSys.move_of_step hs with
  | fault | call | otherInt | take | respond => exact absurd ha id
  | waitInt =>
      refine h.irqStep ?_
      show IpcSys.done (s.ipc.setDone _ _) t ≤ _
      rw [IpcSys.done_setDone]
      split
      · next ht => exact ht ▸ Nat.sub_le _ _
      · exact le_rfl
  | irqInit => exact h.irqStep le_rfl
  | @irqOp op => exact h.irqStep (s.ipc.irq.intDone_perform_le op t.intSrc)
  | @ringMbox c t' hpc hm =>
      obtain rfl : t' = t := h.on hpc id
      rw [show rings mbox t' (.switch c) = some c from if_pos hm]
      refine h.ringIpc hpc id rfl ?_ ?_ ?_ ?_
      · simp [IpcPc.Early]
      · simp [IpcPc.On]
      · simp [IpcPc.Early, hm.1]
      · simp [Woken, IpcSys.ring, IpcSys.setPc]
  | @switch c t' hpc hm =>
      obtain rfl : t' = t := h.on hpc id
      have hnone : rings mbox t' (.switch c) = none := if_neg fun hne => hne.2 (hm hne.1)
      rw [hnone]
      refine h.moveIpc hpc id rfl rfl rfl rfl ?_ ?_ ?_
      · simp [IpcPc.On]
      · simp [IpcPc.Early]
      · simp [Woken, IpcSys.setPc]
  | @lock c t' hpc hfree =>
      refine h.moveIpc hpc id rfl rfl rfl rfl ?_ ?_ ?_
      · simp [IpcPc.On]
      · simp [IpcPc.Early]
      · simp [Woken, IpcSys.setPc]
  | @reinit c t' hpc =>
      refine h.moveIpc hpc id rfl rfl rfl rfl ?_ ?_ ?_
      · simp [IpcPc.On]
      · simp [IpcPc.Early]
      · simp +contextual [IpcPc.On, Woken, IpcSys.setPc, IpcSys.setDone, IpcSys.done]
  | @wait c t' hpc hm =>
      rw [show rings mbox t (.setSgi c) = none from if_pos hm]
      refine h.moveIpc hpc id rfl rfl rfl rfl ?_ ?_ ?_
      · simp [IpcPc.On]
      · simp [IpcPc.Early]
      · simp [hpc, Woken, IpcSys.setPc, IpcSys.done]
  | @ringSgi c t' hpc hm =>
      obtain rfl : t' = t := h.on hpc id
      rw [show rings mbox t' (.setSgi c) = some c from if_neg (by simp [hm])]
      refine h.ringIpc hpc id rfl ?_ ?_ ?_ ?_
      · simp [IpcPc.Early, hm]
      · simp [IpcPc.On]
      · simp [IpcPc.Early]
      · -- a count would be a response, and nothing was rung yet
        have hzero : s.ipc.done t' = 0 := by
          obtain ⟨_, _, _, hioctl⟩ := h.inIoctl (c := c) (hpc ▸ id)
          by_contra hne
          have hrung := (hioctl.woken (.inl ⟨.inl hpc, hne⟩)).1
          have hearly := hioctl.early (by simp [hpc, IpcPc.Early, hm])
          rw [hearly] at hrung
          cases hrung
        rw [IpcSys.done] at hzero
        simp [Woken, IpcSys.ring, IpcSys.setPc, IpcSys.done, hzero]
  | @wake c t' left hpc hdone =>
      refine h.moveIpc hpc id rfl rfl rfl rfl ?_ ?_ ?_
      · simp [IpcPc.On]
      · simp [IpcPc.Early]
      · intro hon _
        obtain rfl : t' = t := hon
        exact .inl ⟨.inr hpc, hdone⟩
  | @timeout c t' hpc hdone =>
      refine h.moveIpc hpc id rfl rfl rfl rfl ?_ ?_ ?_
      · simp [IpcPc.On]
      · simp [IpcPc.Early]
      · simp [Woken, IpcSys.setPc]
  | @unlock c t' ok hpc =>
      refine h.moveIpc hpc id rfl rfl rfl rfl ?_ ?_ ?_
      · simp [IpcPc.On]
      · simp [IpcPc.Early]
      · simp +contextual [hpc, IpcPc.On, Woken, IpcSys.setPc]

/-! ## the target -/

/-- The target takes its doorbell: it executes the last command sent. -/
theorem inv_take {ipc : IpcSys} (h : Inv mbox t s) (hs : s.ipc.step mbox (.take t) = some ipc) :
    Inv mbox t { s with
      ipc := ipc
      data := (⟨s.cmd, s.data, s.mem⟩ : TgtExec).dataAfter
      mem := (⟨s.cmd, s.data, s.mem⟩ : TgtExec).memAfter
      resPut := false
      execs := s.execs ++ [⟨s.cmd, s.data, s.mem⟩] } := by
  simp only [IpcSys.step] at hs
  split at hs
  swap
  · contradiction
  next hbell =>
  cases hs
  obtain ⟨_, p, hp, hholds⟩ := h.log.bell hbell.1
  have hlen := h.log.length
  rw [hbell.1, if_pos rfl] at hlen
  refine h.target ?_ rfl rfl rfl rfl (List.prefix_append _ _) ?_
  · constructor
    · simp
    · simp
    · simpa using hlen
    · intro i e he
      rw [List.getElem?_append] at he
      split at he
      · exact h.log.once i e he
      · next hi =>
          rw [List.getElem?_singleton] at he
          split at he
          · next hzero =>
              cases he
              have hi : i = s.sent.length - 1 := by omega
              exact ⟨p, by rw [hi, ← List.getLast?_eq_getElem?, hp], hholds⟩
          · cases he
    · simp
    · intro i e e' he he'
      by_cases hi : i + 1 < s.execs.length
      · rw [List.getElem?_append_left (by omega)] at he
        rw [List.getElem?_append_left hi] at he'
        exact h.log.chained i e e' he he'
      · -- the execution in front of the new one is the last one
        have hlast : i + 1 = s.execs.length := by
          have hlt := (List.getElem?_eq_some_iff.mp he').1
          simp at hlt
          omega
        rw [List.getElem?_append_left (by omega), show i = s.execs.length - 1 by omega,
          ← List.getLast?_eq_getElem?] at he
        rw [hlast, List.getElem?_concat_length] at he'
        cases he'
        exact h.log.memory e he
  · intro c cmd ops hstage
    cases hstage with
    | storing _ _ _ hidle => exact absurd hidle.1 (by simp [hbell.1])
    | inIoctl hops h =>
        have hrung : s.ipc.rung c = true := by
          by_contra hne
          have hidle := (h.quiet (by simpa using hne)).1.1
          simp [hbell.1] at hidle
        refine .inIoctl hops ⟨h.on, h.early, ?_, fun hr => (h.mine hr).frame rfl rfl rfl, ?_, ?_⟩
        · exact fun hr => by simp [hrung] at hr
        · exact fun _ _ => ⟨_, by simp, rfl⟩
        · intro hw
          have hidle := (h.woken hw).2.1.1
          simp [hbell.1] at hidle
    | loading _ _ h => exact absurd h.idle.1 (by simp [hbell.1])
    | reading _ _ h => exact absurd h.idle.1 (by simp [hbell.1])

/-- Only a thread in the ioctl is inside while a command is served. -/
theorem Stage.serving {ops : List MboxOp} (h : Stage mbox t s c cmd ops)
    (hserving : s.ipc.serving t = true) :
    ops = .join :: cmd.loads ∧ InIoctl mbox t s c cmd ∧ s.ipc.rung c = true ∧ ¬ s.Woken t c := by
  cases h with
  | storing _ _ _ hidle => exact absurd hidle.2 (by simp [hserving])
  | inIoctl hops h =>
      refine ⟨hops, h, ?_, fun hw => ?_⟩
      · by_contra hne
        have hidle := (h.quiet (by simpa using hne)).1.2
        simp [hserving] at hidle
      · have hidle := (h.woken hw).2.1.2
        simp [hserving] at hidle
  | loading _ _ h => exact absurd h.idle.2 (by simp [hserving])
  | reading _ _ h => exact absurd h.idle.2 (by simp [hserving])

/-- It writes the response. -/
theorem inv_putRes {e : TgtExec} (h : Inv mbox t s) (he : s.execs.getLast? = some e)
    (hserving : s.ipc.serving t = true) : Inv mbox t { s with res := e.res, resPut := true } := by
  refine h.target ?_ rfl rfl rfl rfl List.prefix_rfl ?_
  · exact ⟨h.log.bell, fun _ => ⟨e, he, fun _ => rfl⟩, h.log.length, h.log.once, h.log.memory,
      h.log.chained⟩
  · intro c cmd ops hstage
    obtain ⟨hops, hioctl, hrung, hnot⟩ := hstage.serving hserving
    exact .inIoctl hops ⟨hioctl.on, hioctl.early, hioctl.quiet,
      fun hr => (hioctl.mine hr).frame rfl rfl rfl, hioctl.out, fun hw => absurd hw hnot⟩

/-- It raises its interrupt. -/
theorem inv_respond {ipc : IpcSys} (h : Inv mbox t s) (hput : s.resPut = true)
    (hs : s.ipc.step mbox (.respond t) = some ipc) : Inv mbox t { s with ipc := ipc } := by
  simp only [IpcSys.step] at hs
  split at hs
  swap
  · contradiction
  next hserving =>
  cases hs
  obtain ⟨e, he, hres⟩ := h.log.serving hserving
  have hbell : s.ipc.bell t = false := by
    cases hb : s.ipc.bell t with
    | false => rfl
    | true =>
        have hidle := (h.log.bell hb).1
        rw [hserving] at hidle
        cases hidle
  obtain ⟨irq, hirq⟩ := s.ipc.interrupt_eq t
  rw [IpcSys.respond, hirq]
  refine h.target ?_ rfl rfl rfl rfl List.prefix_rfl ?_
  · constructor
    · exact fun hb => ⟨by simp, (h.log.bell hb).2⟩
    · simp
    · exact h.log.length
    · exact h.log.once
    · exact h.log.memory
    · exact h.log.chained
  · intro c cmd ops hstage
    obtain ⟨hops, hioctl, hrung, hnot⟩ := hstage.serving hserving
    refine .inIoctl hops ⟨hioctl.on, hioctl.early, ?_,
      fun hr => (hioctl.mine hr).frame rfl rfl rfl, hioctl.out, ?_⟩
    · exact fun hr => absurd hrung (by simp [show s.ipc.rung c = false from hr])
    · exact fun _ => ⟨hrung, ⟨hbell, by simp⟩, e, he, hres hput⟩

/-! ## runs -/

theorem inv_init (h : s.Init) : Inv mbox t s := by
  obtain ⟨irq, cmd, res, data, mem, rfl⟩ := h
  refine ⟨?_, fun c => ?_, fun c _ => ⟨trivial, by simp [newThread]⟩, .inl rfl⟩
  · constructor <;> simp [IpcSys.init]
  · constructor <;> simp [newThread, TgtThread.left]

/-- Every step that meets the condition keeps the invariant. -/
theorem inv_step {a : MboxAct} (h : Inv mbox t s) (hok : Exclusive t s a)
    (hs : step mbox t s a = some s') : Inv mbox t s' := by
  cases a with
  | start c call =>
      simp only [step] at hs
      split at hs
      · next hpc => cases hs; exact inv_start h hpc
      · contradiction
  | begin c =>
      simp only [step] at hs
      split at hs
      · next cmd todo hpc htodo => cases hs; exact inv_begin h hpc htodo hok.1 hok.2
      · contradiction
  | op c =>
      simp only [step] at hs
      split at hs
      · next hpc => exact inv_op h hpc hs
      · contradiction
  | endCmd c =>
      simp only [step] at hs
      split at hs
      · next hpc => cases hs; exact inv_endCmd h hpc
      · contradiction
  | ret c =>
      simp only [step] at hs
      split at hs
      · next hpc htodo => cases hs; exact inv_ret h hpc htodo
      · contradiction
  | ipc a =>
      simp only [step] at hs
      split at hs
      · next ha =>
          obtain ⟨ipc, hipc, rfl⟩ := Option.map_eq_some_iff.mp hs
          exact inv_ipc h ha hipc
      · contradiction
  | take =>
      obtain ⟨ipc, hipc, rfl⟩ := Option.map_eq_some_iff.mp hs
      exact inv_take h hipc
  | putRes =>
      simp only [step] at hs
      split at hs
      · next e he =>
          split at hs
          · next hserving => cases hs; exact inv_putRes h he hserving
          · contradiction
      · contradiction
  | respond =>
      simp only [step] at hs
      split at hs
      · next hput =>
          obtain ⟨ipc, hipc, rfl⟩ := Option.map_eq_some_iff.mp hs
          exact inv_respond h hput hipc
      · contradiction

theorem Inv.served (h : Inv mbox t s) : s.Served := by
  have hlen := h.log.length
  constructor
  · constructor
    · omega
    · split at hlen <;> omega
  · exact h.log.once
  · exact h.log.memory
  · exact h.log.chained
  · exact fun c => (h.threads c).call
  · exact fun c => (h.threads c).matched
  · exact fun c => (h.threads c).apart

/-- **Commands and responses**: in a run in which commands exclude each other,
in a build with the mailbox or without it, the target executes the commands
sent, each once, in order and as sent, and every call that returns 0 has had
each of its commands executed and answered. -/
theorem commands_matched {mbox : Bool} {t : PciefTgt} {s : MboxSys}
    (h : Reaches (step mbox t) (Exclusive t) Init s) : s.Served :=
  (h.invariant (P := Inv mbox t) (fun _ => inv_init) fun _ _ _ hi hok hs => inv_step hi hok hs).served

/-- A target whose memory holds the low byte of the address, with a device in irq test mode. -/
def freshTarget : MboxSys :=
  ⟨.init (IpcSys.gpuDev 1), .zero, .zero, fun _ => 0, fun a => a.setWidth 8, false,
    fun _ => newThread, [], [], []⟩

/-- A thread stores its command, the ioctl included. -/
def storeRun (c : Nat) : List MboxAct := .begin c :: List.replicate 5 (.op c)

/-- A thread is in the ioctl, up to the wait. -/
def waitRun (c : Nat) : List MboxAct :=
  [.ipc (.switch c), .ipc (.lock c), .ipc (.reinit c), .ipc (.setSgi c)]

/-- The target executes a command and answers. -/
def targetRun : List MboxAct := [.take, .putRes, .respond]

/-- The wait ends, and the thread takes the rest of a command without data. -/
def loadRun (c : Nat) : List MboxAct :=
  [.ipc (.wake c IpcSys.someLeft), .ipc (.unlock c)] ++ List.replicate 6 (.op c) ++ [.endCmd c, .ret c]

theorem commands_matched_greg : ∃ s, Reaches (step true .smc) (Exclusive .smc) Init s ∧
    (s.th 0).ret = some 0 ∧ (s.th 0).finished.map (·.val) = [0x13121110] ∧ s.Served := by
  obtain ⟨s, h, hret, hval⟩ : ∃ s, Reaches (step true .smc) (Exclusive .smc) Init s ∧
      (s.th 0).ret = some 0 ∧ (s.th 0).finished.map (·.val) = [0x13121110] :=
    exists_reaches (s := freshTarget)
      (.start 0 (.gregU32 0x10) :: storeRun 0 ++ waitRun 0 ++ targetRun ++ loadRun 0)
      ⟨_, _, _, _, _, rfl⟩ (by decide)
  exact ⟨s, h, hret, hval, commands_matched h⟩

/-- Two threads read two addresses, and the second stores its command over that
of the first: the first returns 0 with what is at the address of the second. -/
theorem reads_mixed_up : ∃ s, Reaches (step true .smc) anyStep Init s ∧ (s.th 0).ret = some 0 ∧
    (s.th 0).finished.map (fun r => (r.cmd, r.val)) = [(.rd32 0x10, 0x23222120)] ∧ ¬ s.Served := by
  obtain ⟨s, h, hret, hval, hsent, hexec⟩ : ∃ s, Reaches (step true .smc) anyStep Init s ∧
      (s.th 0).ret = some 0 ∧
      (s.th 0).finished.map (fun r => (r.cmd, r.val)) = [(.rd32 0x10, 0x23222120)] ∧
      s.sent[0]? = some (0, .rd32 0x10) ∧
      s.execs[0]?.map (·.cmd) = some (TgtCmd.rd32 0x20).words :=
    exists_reaches (s := freshTarget)
      (.start 0 (.gregU32 0x10) :: .start 1 (.gregU32 0x20) :: storeRun 0 ++ storeRun 1 ++
        waitRun 0 ++ targetRun ++ loadRun 0)
      ⟨_, _, _, _, _, rfl⟩ (by decide)
  refine ⟨s, h, hret, hval, fun hserved => ?_⟩
  obtain ⟨e, he, hcmd⟩ := Option.map_eq_some_iff.mp hexec
  obtain ⟨p, hp, hof⟩ := hserved.once 0 e he
  obtain rfl : p = (0, .rd32 0x10) := Option.some.inj (hp.symm.trans hsent)
  have hwords := hcmd.symm.trans hof.1
  exact absurd hwords (by decide)

/-- One thread reads two addresses; the first read times out while the target
executes it, and its late response is taken for that of the second. -/
example : ∃ s, Reaches (step true .smc) anyStep Init s ∧ (s.th 0).ret = some 0 ∧
    (s.th 0).finished.map (fun r => (r.cmd, r.val)) = [(.rd32 0x20, 0x13121110)] :=
  exists_reaches (s := freshTarget)
    (.start 0 (.gregU32 0x10) :: storeRun 0 ++ waitRun 0 ++
      [.take, .ipc (.timeout 0), .ipc (.unlock 0), .op 0, .start 0 (.gregU32 0x20)] ++
      storeRun 0 ++ waitRun 0 ++ [.putRes, .respond] ++ loadRun 0)
    ⟨_, _, _, _, _, rfl⟩ (by decide)

end MboxSys

end MtEmu
