import MtEmu.Bare.Completion

/-!
# MtEmu.Bare.Overlap

When a call writes to a channel that still runs.

`dma_bare_xfer` does not stop the channel when its wait times out.  No call
programs a running channel as long as each one empties the completion on a
quiet channel (`program_when_idle`).  Otherwise the next call overwrites the
descriptors of a transfer in progress (`program_while_running`).

What the timeouts have to do with it: if every timeout comes after the
transfer has ended and its interrupt was handled (`QuietTimeout`), every
outstanding transfer belongs to the call that waits for it (`Live`), and
`reinit_completion` then always finds a quiet channel (`reaches_freshReinit`).
-/

namespace MtEmu

open Machine

/-- A call that has enabled the channel. -/
def CallPc.Started : CallPc → Prop
  | .waiting | .woken | .timedOut | .unlocked _ | .returned _ => True
  | _ => False

namespace BareSys

/-- A wait times out on a quiet channel only. -/
def QuietTimeout (s : BareSys) : BareAct → Prop
  | .timeout _ => s.Quiet
  | _ => True

instance (s : BareSys) (a : BareAct) : Decidable (s.QuietTimeout a) := by
  unfold QuietTimeout
  split <;> infer_instance

/-- **The invariant** of runs whose timeouts come on a quiet channel: besides
`Inv`, every outstanding transfer has its call waiting and is at one place of
its way only. -/
structure Live (s : BareSys) : Prop where
  inv : s.Inv
  waited : ∀ d, s.Outstanding d → s.pc d = .waiting
  started : ∀ d ∈ s.delivered, (s.pc d).Started
  running : ∀ d ∈ s.running, d ∉ s.doneBy ∧ d ∉ s.dones ∧ d ∉ s.delivered
  doneBy : ∀ d ∈ s.doneBy, d ∉ s.dones ∧ d ∉ s.delivered
  dones : ∀ d ∈ s.dones, d ∉ s.delivered

/-- What was delivered is not on its way any more. -/
theorem Live.not_delivered {s : BareSys} (h : s.Live) {d : Nat} (hd : s.Outstanding d) :
    d ∉ s.delivered := by
  rcases hd with hd | hd | hd
  · exact (h.running d hd).2.2
  · exact (h.doneBy d hd).2
  · exact h.dones d hd

/-- Without an outstanding transfer the channel is quiet. -/
theorem Inv.quiet {s : BareSys} (h : s.Inv) (hnone : ∀ d, ¬ s.Outstanding d) : s.Quiet := by
  refine ⟨List.eq_nil_iff_forall_not_mem.mpr fun d hd => hnone d (.inl hd),
    List.eq_nil_iff_forall_not_mem.mpr fun d hd => hnone d (.inr (.inl hd)), ?_⟩
  cases hisr : s.isr with
  | none => rfl
  | some f =>
      obtain ⟨d, _, hd⟩ := h.exists_dones hisr
      exact absurd hd (hnone d)

/-- A call that holds the mutex without waiting finds the channel quiet. -/
theorem Live.quiet_of_owner {s : BareSys} (h : s.Live) {c : Nat} (howner : s.owner = some c)
    (hc : s.pc c ≠ .waiting) : s.Quiet := by
  apply h.inv.quiet
  intro d hd
  have hw := h.waited d hd
  have hd' := (h.inv.calls d).owner (by rw [hw]; trivial)
  obtain rfl : c = d := Option.some.inj (howner.symm.trans hd')
  exact hc hw

/-- The completion is then emptied on a quiet channel. -/
theorem Live.freshReinit {mmu : Bool} {info : MtdmaChanInfo} {s s' : BareSys} {a : BareAct}
    (h : s.Live) (hm : Move mmu info s a s') : s.FreshReinit a := by
  cases hm with
  | @reinited c p hpc =>
      have hc := h.inv.calls c
      rw [hpc] at hc
      exact h.quiet_of_owner hc.2 (by simp [hpc])
  | _ => trivial

/-- A step that moves call `c` and leaves the transfers as they are. -/
theorem Live.callStep {s s' : BareSys} {c : Nat} {p : CallPc} (h : s.Live) (hinv : s'.Inv)
    (hpc : s'.pc = Function.update s.pc c p) (hrun : s'.running = s.running)
    (hdone : s'.doneBy = s.doneBy) (hisr : s'.isr = s.isr) (hdel : s'.delivered = s.delivered)
    (hw : s.Outstanding c → p = .waiting) (hs : (s.pc c).Started → p.Started) : s'.Live := by
  have hdones : s'.dones = s.dones := by simp [BareSys.dones, hisr]
  have hout : ∀ d, s'.Outstanding d ↔ s.Outstanding d := by simp [Outstanding, hrun, hdone, hdones]
  constructor
  · exact hinv
  · intro d hd
    rw [hpc]
    by_cases hdc : d = c
    · subst hdc
      simpa using hw ((hout d).mp hd)
    · simpa [hdc] using h.waited d ((hout d).mp hd)
  · intro d hd
    rw [hpc]
    by_cases hdc : d = c
    · subst hdc
      simpa using hs (h.started d (hdel ▸ hd))
    · simpa [hdc] using h.started d (hdel ▸ hd)
  · rw [hrun, hdone, hdones, hdel]
    exact h.running
  · rw [hdone, hdones, hdel]
    exact h.doneBy
  · rw [hdones, hdel]
    exact h.dones

/-- A call makes a write: the enable write puts its transfer on its way. -/
theorem Live.write {s : BareSys} {c : Nat} {a : Access} {rest : List Access} (h : s.Live)
    (hinv : (s.write c a rest).Inv) (hpc : s.pc c = .writing (a :: rest)) :
    (s.write c a rest).Live := by
  have hc := h.inv.calls c
  rw [hpc] at hc
  obtain ⟨hend, _, hquiet, _⟩ := hc
  have hnone := hquiet.not_outstanding c
  have hnd : c ∉ s.delivered := fun hd => by simpa [hpc, CallPc.Started] using h.started c hd
  rcases hend.cons with ⟨rfl, rfl⟩ | ⟨hrest, ha, _⟩
  · have hout : ∀ d, (s.write c enableWrite []).Outstanding d → d = c := by
      intro d hd
      simpa [Outstanding, BareSys.dones, BareSys.write, setPc, hquiet.1, hquiet.2.1, hquiet.2.2] using hd
    constructor
    · exact hinv
    · intro d hd
      obtain rfl := hout d hd
      simp [BareSys.write]
    · intro d hd
      have hdc : d ≠ c := fun heq => hnd (heq ▸ hd)
      simpa [BareSys.write, hdc] using h.started d hd
    all_goals simp [BareSys.dones, BareSys.write, setPc, hquiet.1, hquiet.2.1, hquiet.2.2, hnd]
  · refine h.callStep hinv rfl ?_ rfl rfl rfl (fun hout => absurd hout hnone) ?_
    · simp [BareSys.write, setPc, ha]
    · simp [hpc, CallPc.Started]

/-- A step of the hardware or of the interrupt: transfers move along their
way or leave it. -/
theorem Live.otherStep {s s' : BareSys} (h : s.Live) (hinv : s'.Inv) (hpc : s'.pc = s.pc)
    (hout : ∀ d, s'.Outstanding d → s.Outstanding d)
    (hdel : ∀ d ∈ s'.delivered, d ∈ s.delivered ∨ s.Outstanding d)
    (hrun : ∀ d ∈ s'.running, d ∉ s'.doneBy ∧ d ∉ s'.dones ∧ d ∉ s'.delivered)
    (hdone : ∀ d ∈ s'.doneBy, d ∉ s'.dones ∧ d ∉ s'.delivered)
    (hread : ∀ d ∈ s'.dones, d ∉ s'.delivered) : s'.Live := by
  constructor
  · exact hinv
  · intro d hd
    rw [hpc]
    exact h.waited d (hout d hd)
  · intro d hd
    rw [hpc]
    rcases hdel d hd with hd | hd
    · exact h.started d hd
    · rw [h.waited d hd]
      trivial
  · exact hrun
  · exact hdone
  · exact hread

/-- **Step**: the invariant is kept when timeouts come on a quiet channel. -/
theorem Live.move {mmu : Bool} {info : MtdmaChanInfo} {s s' : BareSys} {a : BareAct} (h : s.Live)
    (hok : s.QuietTimeout a) (hm : Move mmu info s a s') : s'.Live := by
  have hinv := h.inv.move (h.freshReinit hm) hm
  have hrun := h.running
  have hdone := h.doneBy
  have hread := h.dones
  cases hm with
  | @rejected c _ _ _ hpc =>
      exact h.callStep hinv rfl rfl rfl rfl rfl (fun hd => by simpa [hpc] using h.waited c hd)
        (by simp [hpc, CallPc.Started])
  | @called c _ _ _ hpc =>
      exact h.callStep hinv rfl rfl rfl rfl rfl (fun hd => by simpa [hpc] using h.waited c hd)
        (by simp [hpc, CallPc.Started])
  | @locked c _ hpc _ =>
      exact h.callStep hinv rfl rfl rfl rfl rfl (fun hd => by simpa [hpc] using h.waited c hd)
        (by simp [hpc, CallPc.Started])
  | @reinited c _ hpc =>
      exact h.callStep hinv rfl rfl rfl rfl rfl (fun hd => by simpa [hpc] using h.waited c hd)
        (by simp [hpc, CallPc.Started])
  | @cleared c _ hpc =>
      exact h.callStep hinv rfl rfl rfl rfl rfl (fun hd => by simpa [hpc] using h.waited c hd)
        (by simp [hpc, CallPc.Started])
  | @faulted c _ hpc =>
      exact h.callStep hinv rfl rfl rfl rfl rfl (fun hd => by simpa [hpc] using h.waited c hd)
        (by simp [hpc, CallPc.Started])
  | wrote hpc => exact h.write hinv hpc
  | @woke c hpc hne =>
      have hc := h.inv.calls c
      rw [hpc] at hc
      exact h.callStep hinv rfl rfl rfl rfl rfl
        (fun hd => absurd (hc.2.2 hne) (h.not_delivered hd)) fun _ => trivial
  | @timedOut c hpc _ =>
      exact h.callStep hinv rfl rfl rfl rfl rfl
        (fun hd => absurd hd (hok.not_outstanding c)) fun _ => trivial
  | @unlocked c hpc =>
      exact h.callStep hinv rfl rfl rfl rfl rfl (fun hd => by simpa [hpc] using h.waited c hd)
        fun _ => trivial
  | @gaveUp c hpc =>
      exact h.callStep hinv rfl rfl rfl rfl rfl (fun hd => by simpa [hpc] using h.waited c hd)
        fun _ => trivial
  | @returned c hpc =>
      exact h.callStep hinv rfl rfl rfl rfl rfl (fun hd => by simpa [hpc] using h.waited c hd)
        fun _ => trivial
  | @returnedZero c hpc =>
      exact h.callStep hinv rfl rfl rfl rfl rfl (fun hd => by simpa [hpc] using h.waited c hd)
        fun _ => trivial
  | ended hc =>
      apply h.otherStep hinv rfl
      all_goals
        simp only [Outstanding, BareSys.dones, BareSys.hwEnd] at *
        grind
  | isrReads hisr hst =>
      apply h.otherStep hinv rfl
      all_goals
        simp only [Outstanding, BareSys.dones, BareSys.isrRead, hisr] at *
        grind
  | isrClears hisr _ =>
      apply h.otherStep hinv rfl
      all_goals
        simp only [Outstanding, BareSys.dones, BareSys.isrClear, hisr] at *
        grind
  | isrCompletes hisr hc =>
      apply h.otherStep hinv rfl
      all_goals
        simp only [Outstanding, BareSys.dones, BareSys.isrComplete, hisr] at *
        grind

theorem live_init {s : BareSys} (h : s = init) : s.Live := by
  subst h
  constructor
  · exact inv_init rfl
  all_goals simp [init, Outstanding, BareSys.dones]

/-- **Run**: it holds in every state that such a run reaches. -/
theorem live_of_reaches {mmu : Bool} {info : MtdmaChanInfo} {s : BareSys}
    (h : Reaches (step mmu info) QuietTimeout (· = init) s) : s.Live :=
  h.invariant (fun _ => live_init) fun _ _ _ hlive hok hs => hlive.move hok (move_of_step hs)

/-- Such a run empties the completion on a quiet channel only. -/
theorem reaches_freshReinit {mmu : Bool} {info : MtdmaChanInfo} {s : BareSys}
    (h : Reaches (step mmu info) QuietTimeout (· = init) s) :
    Reaches (step mmu info) FreshReinit (· = init) s := by
  induction h with
  | start hi => exact .start hi
  | step hr _ hs ih => exact ih.step ((live_of_reaches hr).freshReinit (move_of_step hs)) hs

/-- **No overlap**: when every call empties the completion on a quiet channel,
no transfer runs while a call writes to the channel. -/
theorem program_when_idle {mmu : Bool} {info : MtdmaChanInfo} {s : BareSys} {c : Nat}
    {as : List Access} (h : Reaches (step mmu info) FreshReinit (· = init) s)
    (hpc : s.pc c = .writing as) : s.running = [] := by
  have hc := (inv_of_reaches h).calls c
  rw [hpc] at hc
  exact hc.2.2.1.1

theorem program_when_idle_secondCall :
    ∃ s as, Reaches (step false default) FreshReinit (· = init) s ∧ s.pc 1 = .writing as ∧
      s.running = [] := by
  obtain ⟨s, hr, hpc⟩ : ∃ s, Reaches (step false default) FreshReinit (· = init) s ∧
      s.pc 1 = .writing [enableWrite] :=
    -- the first call times out, and its transfer ends before the second one
    exists_reaches (startCall 0 ++ [.timeout 0, .unlock 0, .ret 0] ++ doneInterrupt 0 ++
      (startCall 1).dropLast) rfl (by decide)
  exact ⟨s, _, hr, hpc, program_when_idle hr hpc⟩

/-- **Overlap**: the first call times out, and the second one writes to the
channel while the first transfer runs. -/
theorem program_while_running :
    ∃ s, Reaches (step false default) anyStep (· = init) s ∧
      (∃ a rest, s.pc 1 = .writing (a :: rest) ∧ a = .setCh .lbarBasic 0) ∧ 0 ∈ s.running := by
  obtain ⟨s, hr, hpc, hrun⟩ : ∃ s, Reaches (step false default) anyStep (· = init) s ∧
      s.pc 1 = .writing ((.setCh .lbarBasic 0) :: [.setLL .regs .cnt 63,
        .setLL .regs .sarLsb 0x1000, .setLL .regs .sarMsb 0, .setLL .regs .darLsb 0x2000,
        .setLL .regs .darMsb 0, .setCh .intrImsk 0, .setCh .direction 1, enableWrite]) ∧
      0 ∈ s.running :=
    exists_reaches (startCall 0 ++ [.timeout 0, .unlock 0, .ret 0] ++ (startCall 1).take 4) rfl
      (by decide)
  exact ⟨s, hr, ⟨_, _, hpc, rfl⟩, hrun⟩

end BareSys

end MtEmu
