import MtEmu.Engine.LifeCycle

/-!
# MtEmu.Engine.Residue

What is left of a transfer, as `mtdma_device_tx_status` reports it.

`mtdma_device_transfer` adds up the sizes of all bursts in `alloc_sz`, and
`mtdma_start_transfer` the sizes of the chunks it hands over in `xfer_sz`; the difference is
the size of the chunks that are left (`MtdmaDesc.Accounts`).  A step only takes chunks away
from the front of a descriptor (`Later`).

The difference is reported for the descriptor that `vchan_find_desc` finds, which looks at
`desc_issued` only, and unless the cookie counts as complete (`residue_accounts`).
-/

namespace MtEmu

open Machine

/-! ## `tx_status` -/

/-- `vchan_find_desc`. -/
def VirtDmaChan.vchanFindDesc {α : Type} (vc : VirtDmaChan α) (cookie : Int) :
    Option (VirtDmaDesc α) := vc.issued.find? (·.cookie = cookie)

/-- `struct dma_tx_state`. -/
structure DmaTxState where
  last : Int
  used : Int
  residue : U32

/-- `alloc_sz - xfer_sz`. -/
def MtdmaDesc.residue (d : MtdmaDesc) : U32 := d.allocSz - d.xferSz

/-- `mtdma_device_tx_status` with a `txstate`, which `dma_cookie_status` fills first. -/
def MtdmaChan.mtdmaDeviceTxStatus (ch : MtdmaChan) (cookie : Int) : DmaStatus × DmaTxState :=
  let ret := ch.vc.dmaCookieStatus cookie
  let txstate : DmaTxState := ⟨ch.vc.completedCookie, ch.vc.cookie, 0⟩
  if ret = .complete then (ret, txstate)
  else
    let ret := if ret = .inProgress ∧ ch.status = .pause then .paused else ret
    let residue :=
      match ch.vc.vchanFindDesc cookie with
      | some d => d.body.residue
      | none => 0
    (ret, { txstate with residue := residue })

/-! ## the sizes of a descriptor -/

namespace MtdmaDesc

variable {d d' : MtdmaDesc}

/-- The residue is the size of the chunks that are left, in 32-bit arithmetic. -/
def Accounts (d : MtdmaDesc) : Prop := d.residue = (d.chunks.map (·.sz)).sum

/-- The size of the chunks that are left. -/
def left (d : MtdmaDesc) : Nat := (d.chunks.map (·.sz.toNat)).sum

/-- The sizes fit in 32 bits, and the last chunk is not empty. -/
structure Sized (d : MtdmaDesc) : Prop where
  small : d.left < 0x100000000
  last : ∀ c, d.chunks.getLast? = some c → c.sz ≠ 0

/-- The 32-bit sum of sizes that fit. -/
theorem toNat_sum_sz {cs : List MtdmaChunk} (h : (cs.map (·.sz.toNat)).sum < 0x100000000) :
    (cs.map MtdmaChunk.sz).sum.toNat = (cs.map (·.sz.toNat)).sum := by
  induction cs with
  | nil => rfl
  | cons c cs ih =>
      simp only [List.map_cons, List.sum_cons] at h ⊢
      rw [BitVec.toNat_add, ih (by omega)]
      exact Nat.mod_eq_of_lt h

theorem Accounts.toNat_residue (h : d.Accounts) (hs : d.Sized) : d.residue.toNat = d.left := by
  rw [h, toNat_sum_sz hs.small]
  rfl

/-- Nothing is left just when no chunk is. -/
theorem Sized.left_eq_zero (h : d.Sized) : d.left = 0 ↔ d.chunks = [] := by
  refine ⟨fun hz => ?_, fun hnil => by rw [left, hnil]; rfl⟩
  rcases List.eq_nil_or_concat d.chunks with hnil | ⟨cs, c, hc⟩
  · exact hnil
  · rw [List.concat_eq_append] at hc
    have hlast := h.last c (by rw [hc, List.getLast?_concat])
    rw [left, hc, List.map_append, List.sum_append] at hz
    have hzero : c.sz.toNat = 0 := by simpa using (Nat.add_eq_zero_iff.mp hz).2
    exact absurd (BitVec.eq_of_toNat_eq hzero) hlast

theorem left_le_of_suffix (h : d'.chunks <:+ d.chunks) : d'.left ≤ d.left := by
  obtain ⟨pre, hpre⟩ := h
  rw [left, left, ← hpre, List.map_append, List.sum_append]
  exact Nat.le_add_left _ _

/-- What is left of a sized descriptor is sized. -/
theorem Sized.of_suffix (hs : d.Sized) (h : d'.chunks <:+ d.chunks) : d'.Sized := by
  refine ⟨(left_le_of_suffix h).trans_lt hs.small, fun c hc => hs.last c ?_⟩
  obtain ⟨pre, hpre⟩ := h
  rw [← hpre, List.getLast?_append, hc]
  rfl

end MtdmaDesc

/-! ## a new descriptor -/

/-- A non-empty list of non-empty scatter entries with a total that fits in 32 bits. -/
structure Plain (entries : List SgEntry) : Prop where
  ne_nil : entries ≠ []
  nonempty : ∀ sg ∈ entries, sg.dmaLen ≠ 0
  small : (entries.map (·.dmaLen.toNat)).sum < 0x100000000

namespace MtdmaChan.TransferState

/-- The chunks so far. -/
def chunks (st : TransferState) : List MtdmaChunk := st.before ++ [st.chunk]

/-- The sizes so far. -/
def weight (st : TransferState) : Nat := (st.chunks.map (·.sz.toNat)).sum

end MtdmaChan.TransferState

namespace MtdmaChan

variable (ch : MtdmaChan)

/-- A round adds the entry to `alloc_sz` and to a chunk. -/
theorem transferRound_sum (st : TransferState) (sg : SgEntry)
    (h : st.allocSz = (st.chunks.map (·.sz)).sum) :
    (ch.transferRound st sg).allocSz = ((ch.transferRound st sg).chunks.map (·.sz)).sum := by
  simp only [TransferState.chunks, List.map_append, List.sum_append, List.map_cons, List.map_nil,
    List.sum_cons, List.sum_nil] at h ⊢
  simp only [transferRound, h]
  by_cases hfull : BitVec.ofNat 32 st.chunk.bursts.length = ch.info.llMax <;>
    cases ch.dir <;> simp [hfull, BitVec.add_assoc]

/-- A round that does not overflow: the entry is in the last chunk. -/
theorem transferRound_weight (st : TransferState) (sg : SgEntry)
    (h : st.weight + sg.dmaLen.toNat < 0x100000000) :
    (ch.transferRound st sg).weight = st.weight + sg.dmaLen.toNat ∧
      sg.dmaLen.toNat ≤ (ch.transferRound st sg).chunk.sz.toNat := by
  simp only [TransferState.weight, TransferState.chunks, List.map_append, List.sum_append,
    List.map_cons, List.map_nil, List.sum_cons, List.sum_nil] at h ⊢
  have hadd : (st.chunk.sz + sg.dmaLen).toNat = st.chunk.sz.toNat + sg.dmaLen.toNat := by
    rw [BitVec.toNat_add]
    omega
  simp only [transferRound]
  by_cases hfull : BitVec.ofNat 32 st.chunk.bursts.length = ch.info.llMax <;>
    cases ch.dir <;> simp [hfull, hadd, Nat.add_assoc]

/-- The whole loop. -/
theorem foldl_transferRound_sum (entries : List SgEntry) (st : TransferState)
    (h : st.allocSz = (st.chunks.map (·.sz)).sum) :
    (entries.foldl ch.transferRound st).allocSz =
      ((entries.foldl ch.transferRound st).chunks.map (·.sz)).sum := by
  induction entries generalizing st with
  | nil => exact h
  | cons sg entries ih => exact ih _ (transferRound_sum ch st sg h)

theorem foldl_transferRound_weight (entries : List SgEntry) (st : TransferState)
    (h : st.weight + (entries.map (·.dmaLen.toNat)).sum < 0x100000000) :
    (entries.foldl ch.transferRound st).weight =
      st.weight + (entries.map (·.dmaLen.toNat)).sum ∧
    ∀ sg, entries.getLast? = some sg →
      sg.dmaLen.toNat ≤ (entries.foldl ch.transferRound st).chunk.sz.toNat := by
  induction entries generalizing st with
  | nil => exact ⟨rfl, nofun⟩
  | cons sg entries ih =>
      rw [List.map_cons, List.sum_cons] at h ⊢
      obtain ⟨hround, hlast⟩ := transferRound_weight ch st sg (by omega)
      obtain ⟨hrest, hlast'⟩ := ih (ch.transferRound st sg) (by omega)
      refine ⟨by rw [List.foldl_cons, hrest, hround, Nat.add_assoc], fun sg' hsg' => ?_⟩
      cases entries with
      | nil =>
          obtain rfl := Option.some.inj hsg'
          exact hlast
      | cons sg₁ entries =>
          rw [List.getLast?_cons_cons] at hsg'
          exact hlast' sg' hsg'

/-- A new descriptor accounts for its chunks, and is sized when its entries are plain. -/
theorem transfer_accounts {sgl : List SgEntry} {len : U32} {allocOk : Bool} {body : MtdmaDesc}
    (h : ch.mtdmaDeviceTransfer sgl len allocOk = some body) :
    body.Accounts ∧ (Plain (sgl.take len.toNat) → body.Sized) := by
  unfold mtdmaDeviceTransfer at h
  split at h
  · cases h
  split at h
  · cases h
  split at h
  · cases h
  · cases h
    refine ⟨(BitVec.sub_zero _).trans (foldl_transferRound_sum ch _ _ rfl), fun hp => ?_⟩
    obtain ⟨hweight, hlast⟩ := foldl_transferRound_weight ch (sgl.take len.toNat)
      ⟨[], ⟨[], 0⟩, _, 0⟩ (by simpa [TransferState.weight, TransferState.chunks] using hp.small)
    refine ⟨hweight.trans_lt ?_, fun c hc => ?_⟩
    · simpa [TransferState.weight, TransferState.chunks] using hp.small
    · rw [List.getLast?_concat] at hc
      obtain rfl := Option.some.inj hc
      obtain ⟨sg, hsg⟩ := List.getLast?_isSome.mpr hp.ne_nil |> Option.isSome_iff_exists.mp
      have hle := hlast sg hsg
      have hne := hp.nonempty sg (List.mem_of_getLast? hsg)
      intro hz
      rw [hz] at hle
      exact hne (BitVec.eq_of_toNat_eq (Nat.le_zero.mp hle))

end MtdmaChan

/-! ## what a step does to a descriptor -/

/-- The same descriptor, of which chunks were handed over. -/
structure Later (d d' : VirtDmaDesc MtdmaDesc) : Prop where
  id : d'.id = d.id
  chunks : d'.body.chunks <:+ d.body.chunks
  accounts : d.body.Accounts → d'.body.Accounts

theorem Later.refl (d : VirtDmaDesc MtdmaDesc) : Later d d := ⟨rfl, List.suffix_rfl, fun ha => ha⟩

theorem Later.trans {d d' d'' : VirtDmaDesc MtdmaDesc} (h : Later d d') (h' : Later d' d'') :
    Later d d'' :=
  ⟨h'.id.trans h.id, h'.chunks.trans h.chunks, fun ha => h'.accounts (h.accounts ha)⟩

/-- Every live descriptor was live before. -/
def Evolves (vc vc' : VirtDmaChan MtdmaDesc) : Prop := ∀ d' ∈ vc'.live, ∃ d ∈ vc.live, Later d d'

theorem Evolves.of_subset {vc vc' : VirtDmaChan MtdmaDesc} (h : vc'.live ⊆ vc.live) :
    Evolves vc vc' := fun d hd => ⟨d, h hd, .refl d⟩

theorem Evolves.of_eq {vc vc' : VirtDmaChan MtdmaDesc} (h : vc' = vc) : Evolves vc vc' :=
  .of_subset fun _ hd => h ▸ hd

theorem Evolves.retire (vc : VirtDmaChan MtdmaDesc) : Evolves vc vc.retire := by
  refine .of_subset ?_
  rw [VirtDmaChan.live, VirtDmaChan.live, VirtDmaChan.queued_retire, VirtDmaChan.allocated_retire,
    VirtDmaChan.queued, VirtDmaChan.behind]
  exact (((List.tail_sublist _).append_right _).append_right _).subset

/-- A submission gives a descriptor its cookie. -/
theorem Evolves.submit {vc vc' : VirtDmaChan MtdmaDesc} {id : Nat}
    (h : vc.vchanTxSubmit id = some vc') : Evolves vc vc' := by
  obtain ⟨l, d, r, heq, -, rfl⟩ := VirtDmaChan.exists_of_vchanTxSubmit h
  intro d' hd'
  simp only [VirtDmaChan.live, VirtDmaChan.queued, List.mem_append, List.mem_singleton] at hd'
  simp only [VirtDmaChan.live, VirtDmaChan.queued, heq, List.mem_append, List.mem_cons]
  rcases hd' with (hd' | hd' | rfl) | hd' | hd'
  · exact ⟨d', .inl (.inl hd'), .refl d'⟩
  · exact ⟨d', .inl (.inr hd'), .refl d'⟩
  · exact ⟨d, .inr (.inr (.inl rfl)), rfl, List.suffix_rfl, fun ha => ha⟩
  · exact ⟨d', .inr (.inl hd'), .refl d'⟩
  · exact ⟨d', .inr (.inr (.inr hd')), .refl d'⟩

namespace MtdmaChan

/-- `mtdma_start_transfer` takes the size of a chunk from both sides. -/
theorem evolves_startTransfer (ch : MtdmaChan) : Evolves ch.vc ch.mtdmaStartTransfer.1.vc := by
  unfold mtdmaStartTransfer
  split
  · exact .of_subset fun _ hd => hd
  · next d rest hissued =>
      split
      · exact .of_subset fun _ hd => hd
      · next child chunks hchunks =>
          intro d' hd'
          simp only [VirtDmaChan.live, VirtDmaChan.queued, hissued, List.mem_append,
            List.mem_cons] at hd' ⊢
          rcases hd' with ((rfl | hd') | hd') | hd'
          · refine ⟨d, .inl (.inl (.inl rfl)), rfl, ?_, fun ha => ?_⟩
            · rw [hchunks]
              exact List.suffix_cons _ _
            · rw [MtdmaDesc.Accounts, MtdmaDesc.residue, hchunks, List.map_cons,
                List.sum_cons] at ha
              rw [MtdmaDesc.Accounts, MtdmaDesc.residue]
              dsimp only
              generalize (chunks.map (·.sz)).sum = sum at ha ⊢
              bv_omega
          · exact ⟨d', .inl (.inl (.inr hd')), .refl d'⟩
          · exact ⟨d', .inl (.inr hd'), .refl d'⟩
          · exact ⟨d', .inr hd', .refl d'⟩

theorem evolves_issuePending (ch : MtdmaChan) :
    Evolves ch.vc ch.mtdmaDeviceIssuePending.1.vc := by
  have hissue : ch.vc.vchanIssuePending.1.live = ch.vc.live := by
    rw [VirtDmaChan.live, VirtDmaChan.queued_vchanIssuePending]
    rfl
  unfold mtdmaDeviceIssuePending
  split
  · dsimp only
    split
    · intro d' hd'
      obtain ⟨d, hd, hlater⟩ := evolves_startTransfer _ d' hd'
      exact ⟨d, hissue ▸ hd, hlater⟩
    · exact .of_subset fun _ hd => hissue ▸ hd
  · exact .of_subset fun _ hd => hd

theorem evolves_doneInterrupt (ch : MtdmaChan) :
    Evolves ch.vc ch.mtdmaDoneInterrupt.1.vc := by
  unfold mtdmaDoneInterrupt
  split
  · exact .of_subset fun _ hd => hd
  · split
    · split
      · exact evolves_startTransfer { ch with status := .busy }
      · exact .retire _
    · exact .retire _
    · exact .of_subset fun _ hd => hd

end MtdmaChan

/-! ## runs -/

/-- A channel under its callbacks, with the scatter entries of each descriptor. -/
structure ResidueSys where
  life : LifeSys
  entries : Nat → List SgEntry

namespace ResidueSys

/-- The entries after a step; a preparation that fails leaves no descriptor that has the
number. -/
def note (s : ResidueSys) : LifeAct → Nat → List SgEntry
  | .call (.prep sgl len _) => Function.update s.entries s.life.nextId (sgl.take len.toNat)
  | _ => s.entries

/-- A step of the channel. -/
def step (s : ResidueSys) (a : LifeAct) : Option ResidueSys :=
  (s.life.step a).map fun life => ⟨life, s.note a⟩

/-- A channel after its setup. -/
def Init (s : ResidueSys) : Prop := LifeSys.Init s.life ∧ s.entries = fun _ => []

/-- No submission takes the last completed cookie again. -/
def CookiesLeft (s : ResidueSys) : LifeAct → Prop
  | .call (.submit _) => s.life.chan.vc.CookieLeft
  | _ => True

instance (s : ResidueSys) (a : LifeAct) : Decidable (s.CookiesLeft a) := by
  unfold CookiesLeft
  split <;> infer_instance

/-- The virtual channel. -/
def vc (s : ResidueSys) : VirtDmaChan MtdmaDesc := s.life.chan.vc

/-- The residue reported for a cookie. -/
def residue (s : ResidueSys) (cookie : Int) : U32 :=
  (s.life.chan.mtdmaDeviceTxStatus cookie).2.residue

variable {s s' : ResidueSys}

/-- What a step does: live descriptors go on, or there is a new one behind them. -/
inductive Move (s s' : ResidueSys) : Prop
  | evolves (hvc : Evolves s.vc s'.vc) (hnext : s'.life.nextId = s.life.nextId)
      (hentries : ∀ id < s.life.nextId, s'.entries id = s.entries id)
  | prepares (body : MtdmaDesc) (hacc : body.Accounts)
      (hsized : Plain (s'.entries s.life.nextId) → body.Sized)
      (hvc : s'.vc = s.vc.vchanTxPrep ⟨s.life.nextId, 0, .noError, body⟩)
      (hnext : s'.life.nextId = s.life.nextId + 1)
      (hentries : ∀ id < s.life.nextId, s'.entries id = s.entries id)

theorem note_of_lt (s : ResidueSys) (a : LifeAct) {id : Nat} (h : id < s.life.nextId) :
    s.note a id = s.entries id := by
  unfold note
  split
  · exact Function.update_of_ne (Nat.ne_of_lt h) _ _
  · rfl

/-- A call of the channel prepares a descriptor, or lets those that are live go on. -/
theorem move_of_calls {a : ChanAct} {r : ChanCall} (hc : s.life.chan.Calls s.life.nextId a r) :
    Move s ⟨s.life.after a r, s.note (.call a)⟩ := by
  have hentries : ∀ id < s.life.nextId, s.note (.call a) id = s.entries id :=
    fun id hid => s.note_of_lt _ hid
  cases hc with
  | prep hbody _ =>
      obtain ⟨hacc, hsized⟩ := MtdmaChan.transfer_accounts _ hbody
      refine .prepares _ hacc (fun hp => hsized ?_) rfl rfl hentries
      simpa [note] using hp
  | submit hvc => exact .evolves (.submit hvc) rfl hentries
  | issue _ heq =>
      have hevolves := MtdmaChan.evolves_issuePending s.life.chan
      rw [heq] at hevolves
      exact .evolves hevolves rfl hentries
  | done _ heq =>
      have hevolves := MtdmaChan.evolves_doneInterrupt s.life.chan
      rw [heq] at hevolves
      exact .evolves hevolves rfl hentries
  | abort => exact .evolves (.retire _) rfl hentries
  | terminate ht => exact .evolves (.of_eq ht.vc) rfl hentries
  | free ht => exact .evolves (.of_eq ht.vc) rfl hentries
  | prepFails _ | freeNothing | alloc | config =>
      exact .evolves (.of_subset fun _ hd => hd) rfl hentries

theorem move_of_step {a : LifeAct} (h : step s a = some s') : Move s s' := by
  obtain ⟨life, hlife, rfl⟩ := Option.map_eq_some_iff.mp h
  have hentries : ∀ id < s.life.nextId, s.note a id = s.entries id :=
    fun id hid => s.note_of_lt a hid
  cases a with
  | call a =>
      obtain ⟨r, hc, rfl⟩ := LifeSys.calls_of_call hlife
      exact move_of_calls hc
  | taskletTake =>
      simp only [LifeSys.step] at hlife
      split at hlife
      · cases hlife
        exact .evolves (.of_subset fun _ hd => hd) rfl hentries
      · contradiction
  | taskletCall =>
      simp only [LifeSys.step] at hlife
      split at hlife
      · cases hlife
        exact .evolves (.of_subset fun _ hd => hd) rfl hentries
      · contradiction

/-- The channel is that of a run of `LifeSys`. -/
theorem life_of_reaches {ok : ResidueSys → LifeAct → Prop} {init : ResidueSys → Prop}
    {init' : LifeSys → Prop} (h0 : ∀ s, init s → init' s.life)
    (h : Reaches step ok init s) : Reaches LifeSys.step anyStep init' s.life := by
  refine h.project ResidueSys.life h0 fun s a s' _ hs => .inr ⟨a, trivial, ?_⟩
  obtain ⟨life, hlife, rfl⟩ := Option.map_eq_some_iff.mp hs
  exact hlife

theorem life_inv_of_reaches {ok : ResidueSys → LifeAct → Prop} (h : Reaches step ok Init s) :
    s.life.Inv :=
  (LifeSys.inv_of_reaches (life_of_reaches (fun _ hi => hi.1) h)).1

/-- **The invariant**: the live descriptors are numbered below the next number, account for
their chunks, and are sized when their entries are plain. -/
structure Inv (s : ResidueSys) : Prop where
  lt : ∀ d ∈ s.vc.live, d.id < s.life.nextId
  accounts : ∀ d ∈ s.vc.live, d.body.Accounts
  sized : ∀ d ∈ s.vc.live, Plain (s.entries d.id) → d.body.Sized

theorem inv_of_init (h : Init s) : s.Inv := by
  obtain ⟨⟨dir, info, hlife⟩, -⟩ := h
  have hnil : s.vc.live = [] := by rw [vc, hlife]; rfl
  constructor <;> simp [hnil]

/-- **Step**: the invariant is kept. -/
theorem Inv.move (h : s.Inv) (hm : Move s s') : s'.Inv := by
  cases hm with
  | evolves hvc hnext hentries =>
      refine ⟨fun d' hd' => ?_, fun d' hd' => ?_, fun d' hd' hp => ?_⟩
      all_goals obtain ⟨d, hd, hlater⟩ := hvc d' hd'
      · rw [hlater.id, hnext]
        exact h.lt d hd
      · exact hlater.accounts (h.accounts d hd)
      · rw [hlater.id, hentries _ (h.lt d hd)] at hp
        exact (h.sized d hd hp).of_suffix hlater.chunks
  | prepares body hacc hsized hvc hnext hentries =>
      have hlive : ∀ d ∈ s'.vc.live, d ∈ s.vc.live ∨ d = ⟨s.life.nextId, 0, .noError, body⟩ := by
        intro d hd
        rw [hvc] at hd
        simpa [VirtDmaChan.live, VirtDmaChan.vchanTxPrep, VirtDmaChan.queued, or_assoc] using hd
      refine ⟨fun d hd => ?_, fun d hd => ?_, fun d hd hp => ?_⟩
      all_goals rcases hlive d hd with hold | rfl
      · rw [hnext]
        exact Nat.lt_succ_of_lt (h.lt d hold)
      · rw [hnext]
        exact Nat.lt_succ_self _
      · exact h.accounts d hold
      · exact hacc
      · rw [hentries _ (h.lt d hold)] at hp
        exact h.sized d hold hp
      · exact hsized hp

theorem inv_of_reaches {ok : ResidueSys → LifeAct → Prop} (h : Reaches step ok Init s) : s.Inv :=
  h.invariant (fun _ => inv_of_init) fun _ _ _ hinv _ hs => hinv.move (move_of_step hs)

/-! ### cookies -/

/-- Only a submission adds to the log. -/
theorem log_of_step {l l' : LifeSys} {a : LifeAct} (ha : ∀ id, a ≠ .call (.submit id))
    (h : l.step a = some l') : l'.log = l.log := by
  cases a with
  | call a =>
      obtain ⟨r, -, rfl⟩ := LifeSys.calls_of_call h
      cases a with
      | submit id => exact absurd rfl (ha id)
      | _ => rfl
  | taskletTake =>
      simp only [LifeSys.step] at h
      split at h <;> cases h
      rfl
  | taskletCall =>
      simp only [LifeSys.step] at h
      split at h <;> cases h
      rfl

/-- The cookies of what waits grow. -/
theorem ordered_of_reaches (h : Reaches step CookiesLeft Init s) : s.vc.Ordered := by
  refine h.invariant (P := fun s => s.vc.Ordered) ?_ ?_
  · rintro s ⟨⟨dir, info, hlife⟩, -⟩
    rw [vc, hlife]
    exact VirtDmaChan.ordered_vchanInit
  · rintro s a s' hord hok hs
    obtain ⟨life, hlife, rfl⟩ := Option.map_eq_some_iff.mp hs
    cases LifeSys.effect_of_step hlife with
    | keeps _ _ htags _ _ hcookie hcompleted => exact hord.of_eq hcookie hcompleted htags
    | prepares d hid heq =>
        subst heq
        exact hord.of_eq rfl rfl rfl
    | submits id vc hvc heq =>
        subst heq
        by_cases ha : ∃ id', a = .call (.submit id')
        · obtain ⟨id', rfl⟩ := ha
          exact hord.vchanTxSubmit hok hvc
        · exact absurd (log_of_step (fun id' heq => ha ⟨id', heq⟩) hlife) (by simp)
    | retires ch hvc heq =>
        subst heq
        rw [ResidueSys.vc, hvc]
        exact hord.retire

/-- An issued descriptor is the one found by its cookie, and its residue is reported. -/
theorem residue_eq (h : s.vc.Ordered) {d : VirtDmaDesc MtdmaDesc} (hd : d ∈ s.vc.issued) :
    s.residue d.cookie = d.body.residue := by
  have htag : (d.id, d.cookie) ∈ s.vc.tags :=
    List.mem_map_of_mem (List.mem_append_left _ hd)
  have hstatus : s.life.chan.vc.dmaCookieStatus d.cookie = .inProgress := h.dmaCookieStatus htag
  have hnodup : (s.vc.issued.map (·.cookie)).Nodup := by
    have htags : (s.vc.tags.map (·.2)).Nodup := by
      refine List.pairwise_map.mpr (h.grow.imp fun hlt heq => ?_)
      rw [heq] at hlt
      exact absurd hlt (Int.lt_irrefl _)
    rw [VirtDmaChan.tags, VirtDmaChan.queued, List.map_map, List.map_append] at htags
    exact (List.nodup_append.mp htags).1
  have hfind : s.vc.vchanFindDesc d.cookie = some d := by
    have hsome : (s.vc.issued.find? (·.cookie = d.cookie)).isSome :=
      List.find?_isSome.mpr ⟨d, hd, by simp⟩
    obtain ⟨x, hx⟩ := Option.isSome_iff_exists.mp hsome
    have hcookie : x.cookie = d.cookie := by simpa using List.find?_some hx
    rw [VirtDmaChan.vchanFindDesc, hx,
      List.inj_on_of_nodup_map hnodup (List.mem_of_find?_eq_some hx) hd hcookie]
  rw [vc] at hfind
  simp [residue, MtdmaChan.mtdmaDeviceTxStatus, hstatus, hfind]

/-! ### later in a run -/

/-- **Run**: a descriptor that is live later was live with the same number, and what is left
of it was left then. -/
theorem Inv.run {ok : ResidueSys → LifeAct → Prop} (h : s.Inv)
    (h' : Reaches step ok (· = s) s') : s.life.nextId ≤ s'.life.nextId ∧
      ∀ d' ∈ s'.vc.live, d'.id < s.life.nextId → ∃ d ∈ s.vc.live, Later d d' := by
  refine h'.invariant (P := fun t => s.life.nextId ≤ t.life.nextId ∧
    ∀ d' ∈ t.vc.live, d'.id < s.life.nextId → ∃ d ∈ s.vc.live, Later d d') ?_ ?_
  · rintro t rfl
    exact ⟨Nat.le_refl _, fun d hd _ => ⟨d, hd, .refl d⟩⟩
  · rintro t a t' ⟨hle, hlive⟩ - hs
    cases move_of_step hs with
    | evolves hvc hnext _ =>
        refine ⟨hnext ▸ hle, fun d'' hd'' hlt => ?_⟩
        obtain ⟨d', hd', hlater'⟩ := hvc d'' hd''
        obtain ⟨d, hd, hlater⟩ := hlive d' hd' (hlater'.id ▸ hlt)
        exact ⟨d, hd, hlater.trans hlater'⟩
    | prepares body _ _ hvc hnext _ =>
        refine ⟨by omega, fun d' hd' hlt => ?_⟩
        rw [hvc] at hd'
        have hcases : d' ∈ t.vc.live ∨ d' = ⟨t.life.nextId, 0, .noError, body⟩ := by
          simpa [VirtDmaChan.live, VirtDmaChan.vchanTxPrep, VirtDmaChan.queued, or_assoc] using hd'
        rcases hcases with hold | rfl
        · exact hlive d' hold hlt
        · exact absurd hlt (Nat.not_lt.mpr hle)

/-- The log only grows. -/
theorem log_grows {ok : ResidueSys → LifeAct → Prop} (h : Reaches step ok (· = s) s') :
    s.life.log <+: s'.life.log := by
  refine h.invariant (P := fun t => s.life.log <+: t.life.log) ?_ ?_
  · rintro t rfl
    exact List.prefix_rfl
  · rintro t a t' hgrows - hs
    obtain ⟨life, hlife, rfl⟩ := Option.map_eq_some_iff.mp hs
    refine hgrows.trans ?_
    cases LifeSys.effect_of_step hlife with
    | keeps hlog => exact hlog ▸ List.prefix_rfl
    | prepares d _ heq => exact heq ▸ List.prefix_rfl
    | submits id vc _ heq => exact heq ▸ List.prefix_append _ _
    | retires ch _ heq => exact heq ▸ List.prefix_rfl

/-- The number and the cookie of an issued descriptor are in the log. -/
theorem mem_log (h : s.life.Inv) {d : VirtDmaDesc MtdmaDesc} (hd : d ∈ s.vc.issued) :
    (d.id, d.cookie) ∈ s.life.log := by
  have htag : (d.id, d.cookie) ∈ s.vc.tags :=
    List.mem_map_of_mem (List.mem_append_left _ hd)
  rw [vc, ← h.tags] at htag
  exact List.mem_of_mem_drop htag

/-- The numbers in the log are different. -/
theorem nodup_log (h : s.life.Inv) : (s.life.log.map (·.1)).Nodup := by
  have hlife := h.lifeCycle
  rw [hlife.order]
  exact hlife.once

/-- An issued descriptor is live. -/
theorem live_of_issued {d : VirtDmaDesc MtdmaDesc} (hd : d ∈ s.vc.issued) : d ∈ s.vc.live :=
  List.mem_append_left _ (List.mem_append_left _ hd)

/-- **Residue**: in every state of every run the residue of an issued descriptor is the
32-bit size of the chunks that were not handed over.  When its scatter entries are not empty
and fit, and no submission takes the last completed cookie again, the residue reported for
it is 0 just when no chunk is left, and never grows as long as it is issued. -/
theorem residue_accounts (h : Reaches step anyStep Init s) :
    (∀ d ∈ s.vc.issued, d.body.allocSz - d.body.xferSz = (d.body.chunks.map (·.sz)).sum) ∧
    (Reaches step CookiesLeft Init s → ∀ d ∈ s.vc.issued, Plain (s.entries d.id) →
      (s.residue d.cookie = 0 ↔ d.body.chunks = []) ∧
      ∀ s', Reaches step CookiesLeft (· = s) s' → ∀ d' ∈ s'.vc.issued, d'.id = d.id →
        d'.cookie = d.cookie ∧ s'.residue d.cookie ≤ s.residue d.cookie) := by
  have hinv := inv_of_reaches h
  refine ⟨fun d hd => hinv.accounts d (live_of_issued hd), fun hc d hd hp => ?_⟩
  have hlive := live_of_issued hd
  have hsized := hinv.sized d hlive hp
  have hleft := (hinv.accounts d hlive).toNat_residue hsized
  have heq := residue_eq (ordered_of_reaches hc) hd
  constructor
  · rw [heq, ← hsized.left_eq_zero, ← hleft]
    exact BitVec.toNat_inj.symm
  · intro s' hrun d' hd' hid
    have hc' : Reaches step CookiesLeft Init s' :=
      hrun.invariant (P := Reaches step CookiesLeft Init) (by rintro _ rfl; exact hc)
        fun _ _ _ ih hok hs => ih.step hok hs
    have hlife := life_inv_of_reaches hc
    have hlife' := life_inv_of_reaches hc'
    have hcookie : d'.cookie = d.cookie := by
      have hmem := (log_grows hrun).subset (mem_log hlife hd)
      exact congrArg (·.2)
        (List.inj_on_of_nodup_map (nodup_log hlife') (mem_log hlife' hd') hmem hid)
    obtain ⟨d₀, hd₀, hlater⟩ :=
      (hinv.run hrun).2 d' (live_of_issued hd') (hid ▸ hinv.lt d hlive)
    obtain rfl : d₀ = d :=
      List.inj_on_of_nodup_map hlife.distinct.nodup hd₀ hlive (hlater.id.symm.trans hid)
    have hleft' := (hlater.accounts (hinv.accounts d₀ hlive)).toNat_residue
      (hsized.of_suffix hlater.chunks)
    refine ⟨hcookie, ?_⟩
    rw [← hcookie, residue_eq (ordered_of_reaches hc') hd', hcookie, heq, BitVec.le_def, hleft,
      hleft']
    exact MtdmaDesc.left_le_of_suffix hlater.chunks

/-- A channel whose chunks have one burst each. -/
def fresh : ResidueSys :=
  ⟨⟨.setup .memToDev ⟨0, 0, 0, 0, 0, 1⟩, 0, [], [], []⟩, fun _ => []⟩

theorem init_fresh : Init fresh := ⟨⟨_, _, rfl⟩, rfl⟩

/-- A client that prepares a descriptor of two chunks and has it issued. -/
def issueTwoChunks : List LifeAct :=
  [.config ⟨0x1000, 0x2000⟩, .prep [⟨0x8000, 64⟩, ⟨0x9000, 32⟩] 2 true, .submit 0,
    .issuePending].map .call

theorem residue_accounts_twoChunks : ∃ s s' d d', Reaches step CookiesLeft Init s ∧
    Reaches step CookiesLeft (· = s) s' ∧ d ∈ s.vc.issued ∧ d' ∈ s'.vc.issued ∧ d'.id = d.id ∧
      d.body.allocSz - d.body.xferSz = (d.body.chunks.map (·.sz)).sum ∧
      (s.residue d.cookie = 0 ↔ d.body.chunks = []) ∧
      s'.residue d.cookie ≤ s.residue d.cookie := by
  obtain ⟨s, hs, ⟨hissued, hentries⟩, hrun⟩ : ∃ s, Reaches step CookiesLeft Init s ∧
      (s.vc.issued = [⟨0, 2, .noError, ⟨[⟨[⟨0x9000, 0x2040, 32⟩], 32⟩], 96, 64⟩⟩] ∧
        s.entries 0 = [⟨0x8000, 64⟩, ⟨0x9000, 32⟩]) ∧
      (exec (guarded step CookiesLeft) s [.call .doneInterrupt]).any
        (·.vc.issued = [⟨0, 2, .noError, ⟨[], 96, 96⟩⟩]) = true :=
    exists_reaches issueTwoChunks init_fresh (by decide)
  obtain ⟨s', hs', hissued'⟩ : ∃ s', Reaches step CookiesLeft (· = s) s' ∧
      s'.vc.issued = [⟨0, 2, .noError, ⟨[], 96, 96⟩⟩] :=
    exists_reaches [.call .doneInterrupt] rfl hrun
  have hd := hissued ▸ List.mem_singleton_self _
  have hd' := hissued' ▸ List.mem_singleton_self _
  have hplain : Plain (s.entries 0) := by
    rw [hentries]
    exact ⟨by simp, by simp, by decide⟩
  obtain ⟨hsum, hres⟩ := residue_accounts hs.unguarded
  obtain ⟨hzero, hle⟩ := hres hs _ hd hplain
  exact ⟨s, s', _, _, hs, hs', hd, hd', rfl, hsum _ hd, hzero, (hle s' hs' _ hd' rfl).2⟩

/-! ## before it is issued, and when cookies begin again -/

/-- Two descriptors are submitted before any is issued. -/
def submitTwo : List LifeAct :=
  [.config ⟨0x1000, 0x2000⟩, .prep [⟨0x8000, 64⟩] 1 true, .prep [⟨0x9000, 64⟩] 1 true,
    .submit 0, .submit 1].map .call

/-- What is submitted reports nothing left, and more when it is issued. -/
theorem residue_grows : ∃ s s' d d', Reaches step CookiesLeft Init s ∧
    Reaches step CookiesLeft (· = s) s' ∧ d ∈ s.vc.submitted ∧ Plain (s.entries d.id) ∧
      d.body.chunks ≠ [] ∧ s.residue d.cookie = 0 ∧ d' ∈ s'.vc.issued ∧ d'.id = d.id ∧
      d'.cookie = d.cookie ∧ s'.residue d.cookie = 64 := by
  let d : VirtDmaDesc MtdmaDesc :=
    ⟨1, 3, .noError, ⟨[⟨[⟨0x9000, 0x2000, 64⟩], 64⟩], 64, 0⟩⟩
  obtain ⟨s, hs, ⟨hd, hentries, hzero⟩, hrun⟩ : ∃ s, Reaches step CookiesLeft Init s ∧
      (d ∈ s.vc.submitted ∧ s.entries 1 = [⟨0x9000, 64⟩] ∧ s.residue 3 = 0) ∧
      (exec (guarded step CookiesLeft) s [.call .issuePending]).any
        (fun t => d ∈ t.vc.issued ∧ t.residue 3 = 64) = true :=
    exists_reaches submitTwo init_fresh (by decide)
  obtain ⟨s', hs', hd', hres⟩ : ∃ s', Reaches step CookiesLeft (· = s) s' ∧
      d ∈ s'.vc.issued ∧ s'.residue 3 = 64 := exists_reaches [.call .issuePending] rfl hrun
  have hplain : Plain (s.entries 1) := by
    rw [hentries]
    exact ⟨by simp, by simp, by decide⟩
  exact ⟨s, s', d, d, hs, hs', hd, hplain, by simp [d], hzero, hd', rfl, rfl, hres⟩

/-- A configured channel on which descriptors wait that were never issued, the first of them
`first`. -/
def waiting (n : Nat) (cookie : Int) (rest : List (VirtDmaDesc MtdmaDesc))
    (log : List (Nat × Int)) (entries : Nat → List SgEntry) : ResidueSys where
  life :=
    { chan :=
        { vc := ⟨cookie, 1, [],
            ⟨0, 2, .noError, ⟨[⟨[⟨0x8000, 0x2000, 64⟩], 64⟩, ⟨[⟨0x9000, 0x2040, 32⟩], 32⟩], 96, 0⟩⟩
              :: rest, [], []⟩
          dir := .memToDev
          info := ⟨0, 0, 0, 0, 0, 1⟩
          request := .none
          status := .idle
          configured := true
          config := ⟨0x1000, 0x2000⟩ }
      nextId := n
      taken := []
      freed := []
      log := log }
  entries := entries

/-- One more descriptor. -/
theorem step_waiting (n : Nat) (cookie : Int) (rest : List (VirtDmaDesc MtdmaDesc))
    (log : List (Nat × Int)) (entries : Nat → List SgEntry) :
    ∃ d, exec (guarded step anyStep) (waiting n cookie rest log entries)
        [.call (.prep [⟨0x8000, 64⟩] 1 true), .call (.submit n)] =
      some (waiting (n + 1) (dmaCookieAssign cookie) (rest ++ [d])
        (log ++ [(n, dmaCookieAssign cookie)]) (Function.update entries n [⟨0x8000, 64⟩])) := by
  refine ⟨⟨n, dmaCookieAssign cookie, .noError, ⟨[⟨[⟨0x8000, 0x2000, 64⟩], 64⟩], 64, 0⟩⟩, ?_⟩
  simp [exec, guarded, anyStep, step, note, LifeSys.step, LifeSys.after, MtdmaChan.call, waiting,
    MtdmaChan.mtdmaDevicePrepSlaveSg, MtdmaChan.mtdmaDeviceTransfer, MtdmaChan.transferRound,
    VirtDmaChan.vchanTxPrep, VirtDmaChan.vchanTxSubmit]

/-- As many descriptors as there are cookies. -/
theorem reaches_waiting (n : Nat) (hn : n < LifeSys.cookieCount) : ∃ rest log entries,
    entries 0 = [⟨0x8000, 64⟩, ⟨0x9000, 32⟩] ∧
      Reaches step anyStep Init (waiting (n + 1) ((n : Int) + 2) rest log entries) := by
  induction n with
  | zero =>
      have hrun : exec (guarded step anyStep) fresh
          ([.config ⟨0x1000, 0x2000⟩, .prep [⟨0x8000, 64⟩, ⟨0x9000, 32⟩] 2 true,
            .submit 0].map .call) =
            some (waiting 1 2 [] [(0, 2)]
              (Function.update (fun _ => []) 0 [⟨0x8000, 64⟩, ⟨0x9000, 32⟩])) := rfl
      exact ⟨[], _, _, rfl, (Reaches.start init_fresh).exec_guarded hrun⟩
  | succ n ih =>
      obtain ⟨rest, log, entries, hentries, hreach⟩ := ih (by omega)
      obtain ⟨d, hstep⟩ := step_waiting (n + 1) ((n : Int) + 2) rest log entries
      have hnext : dmaCookieAssign ((n : Int) + 2) = ((n + 1 : Nat) : Int) + 2 := by
        unfold LifeSys.cookieCount at hn
        rw [dmaCookieAssign_eq (by unfold IsCookie dmaMinCookie dmaMaxCookie; omega),
          if_neg (by unfold dmaMaxCookie; omega)]
        omega
      rw [hnext] at hstep
      refine ⟨_, _, _, ?_, hreach.exec_guarded hstep⟩
      rw [Function.update_of_ne (by omega), hentries]

/-- With 2^31 - 1 descriptors waiting, an issued one with a chunk left counts as complete. -/
theorem residue_lost : ∃ s d, Reaches step anyStep Init s ∧ d ∈ s.vc.issued ∧
    Plain (s.entries d.id) ∧ d.body.chunks ≠ [] ∧ s.residue d.cookie = 0 := by
  obtain ⟨rest, log, entries, hentries, hreach⟩ := reaches_waiting 0x7ffffffd (by decide)
  obtain ⟨d, hstep⟩ := step_waiting 0x7ffffffe 0x7fffffff rest log entries
  have hlast := hreach.exec_guarded hstep
  have hissue := hlast.step (a := .call .issuePending) trivial rfl
  refine ⟨_, ⟨0, 2, .noError, ⟨[⟨[⟨0x9000, 0x2040, 32⟩], 32⟩], 96, 64⟩⟩, hissue, ?_, ?_, ?_, ?_⟩
  · exact List.mem_cons_self
  · have hplain : Plain (Function.update entries 0x7ffffffe [⟨0x8000, 64⟩] 0) := by
      rw [Function.update_of_ne (by decide), hentries]
      exact ⟨by simp, by simp, by decide⟩
    exact hplain
  · simp
  · rfl

/-- **Not over its whole life**: a submitted descriptor reports nothing left, and more when
it is issued; and when cookies begin again an issued one reports nothing left too early. -/
theorem residue_misreported :
    (∃ s s' d d', Reaches step CookiesLeft Init s ∧ Reaches step CookiesLeft (· = s) s' ∧
      d ∈ s.vc.submitted ∧ Plain (s.entries d.id) ∧ d.body.chunks ≠ [] ∧
      s.residue d.cookie = 0 ∧ d' ∈ s'.vc.issued ∧ d'.id = d.id ∧ d'.cookie = d.cookie ∧
      s'.residue d.cookie = 64) ∧
    ∃ s d, Reaches step anyStep Init s ∧ d ∈ s.vc.issued ∧ Plain (s.entries d.id) ∧
      d.body.chunks ≠ [] ∧ s.residue d.cookie = 0 :=
  ⟨residue_grows, residue_lost⟩

end ResidueSys

end MtEmu
