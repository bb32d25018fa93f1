import MtEmu.Lib.Machine
import MtEmu.Engine.Calls

/-!
# MtEmu.Engine.LifeCycle

The way of a descriptor through the lists of its channel.

The machine runs the calls of a channel (`ChanAct`) and its tasklet in any order; an interrupt
may come at any time and the status register may say anything.  `log` records what was
submitted, with its cookie, and `freed` the descriptors whose callback has run, both the
oldest first.

The log is always what is done followed by what waits (`LifeCycle.order`), so nothing is lost,
doubled or overtaken.  Cookies are counted from 2 on, since `dma_cookie_init` takes the first
one; the completed cookie grows as long as they do not begin again (`life_cycle`), which they
do with submission 2^31 - 1 (`cookie_decreases`).
-/

namespace MtEmu

open Machine

/-- A channel, what its tasklet has taken, and the records. -/
structure LifeSys where
  chan : MtdmaChan
  nextId : Nat
  taken : List (VirtDmaDesc MtdmaDesc)
  freed : List Nat
  log : List (Nat × Int)
  deriving DecidableEq

/-- The calls of the channel, and the tasklet. -/
inductive LifeAct where
  | call (a : ChanAct)
  | taskletTake
  | taskletCall

namespace LifeSys

/-- The state after a call of the channel; a submission enters the log with its cookie. -/
def after (s : LifeSys) (a : ChanAct) (r : ChanCall) : LifeSys :=
  { s with
    chan := r.chan
    nextId := r.nextId
    log := match a with
      | .submit id => s.log ++ [(id, r.chan.vc.cookie)]
      | _ => s.log }

/-- One step; `vchan_complete` takes `desc_completed` when its last list is worked off, and
frees each descriptor after its callback. -/
def step (s : LifeSys) : LifeAct → Option LifeSys
  | .call a => (s.chan.call s.nextId a).map (s.after a)
  | .taskletTake =>
      if s.taken = [] then
        some { s with
          chan := { s.chan with vc := { s.chan.vc with completed := [] } }
          taken := s.chan.vc.completed }
      else none
  | .taskletCall =>
      match s.taken with
      | d :: rest => some { s with taken := rest, freed := s.freed ++ [d.id] }
      | [] => none

/-- A channel after its setup. -/
def Init (s : LifeSys) : Prop := ∃ dir info, s = ⟨.setup dir info, 0, [], [], []⟩

/-- The descriptors that were completed, the oldest first. -/
def doneIds (s : LifeSys) : List Nat :=
  s.freed ++ s.taken.map (·.id) ++ s.chan.vc.completed.map (·.id)

/-- The descriptors that wait to be completed, the oldest first. -/
def queuedIds (s : LifeSys) : List Nat := s.chan.vc.queued.map (·.id)

/-- Every submitted descriptor is freed, taken, completed, issued or submitted, and only one
of these, in the order of submission. -/
structure LifeCycle (s : LifeSys) : Prop where
  order : s.log.map (·.1) = s.doneIds ++ s.queuedIds
  once : (s.doneIds ++ s.queuedIds).Nodup

/-- The largest number of submissions before a cookie is used again. -/
def cookieCount : Nat := 0x7ffffffe

/-! ## what a step does to the lists -/

variable {s s' : LifeSys}

/-- What a step does: it leaves the log and what is done as they are and what waits as well,
prepares, submits, completes the first waiting descriptor, or only moves what is done. -/
inductive Effect (s s' : LifeSys) : Prop
  | keeps (hlog : s'.log = s.log) (hdone : s'.doneIds = s.doneIds)
      (htags : s'.chan.vc.tags = s.chan.vc.tags)
      (halloc : s'.chan.vc.allocated = s.chan.vc.allocated) (hnext : s'.nextId = s.nextId)
      (hcookie : s'.chan.vc.cookie = s.chan.vc.cookie)
      (hcompleted : s'.chan.vc.completedCookie = s.chan.vc.completedCookie)
  | prepares (d : VirtDmaDesc MtdmaDesc) (hid : d.id = s.nextId)
      (heq : s' = { s with
        chan := { s.chan with vc := s.chan.vc.vchanTxPrep d }, nextId := s.nextId + 1 })
  | submits (id : Nat) (vc : VirtDmaChan MtdmaDesc) (h : s.chan.vc.vchanTxSubmit id = some vc)
      (heq : s' = { s with
        chan := { s.chan with vc := vc }, log := s.log ++ [(id, vc.cookie)] })
  | retires (ch : MtdmaChan) (hvc : ch.vc = s.chan.vc.retire) (heq : s' = { s with chan := ch })

/-- A channel whose waiting and completed descriptors are the same. -/
theorem Effect.of_chan {ch : MtdmaChan} (hcompleted : ch.vc.completed = s.chan.vc.completed)
    (htags : ch.vc.tags = s.chan.vc.tags) (halloc : ch.vc.allocated = s.chan.vc.allocated)
    (hcookie : ch.vc.cookie = s.chan.vc.cookie)
    (hlast : ch.vc.completedCookie = s.chan.vc.completedCookie) : Effect s { s with chan := ch } := by
  refine .keeps rfl ?_ htags halloc rfl hcookie hlast
  simp only [doneIds, hcompleted]

theorem Effect.of_start {ch ch' : MtdmaChan} {hd : Option Handed} (hs : ch.Start ch' hd)
    (hcompleted : ch.vc.completed = s.chan.vc.completed) (htags : ch.vc.tags = s.chan.vc.tags)
    (halloc : ch.vc.allocated = s.chan.vc.allocated) (hcookie : ch.vc.cookie = s.chan.vc.cookie)
    (hlast : ch.vc.completedCookie = s.chan.vc.completedCookie) :
    Effect s { s with chan := ch' } := by
  refine .of_chan (hs.completed.trans hcompleted) (hs.tags.trans htags)
    (hs.allocated.trans halloc) ?_ ?_
  · cases hs <;> exact hcookie
  · cases hs <;> exact hlast

theorem Effect.of_terminate {running : Bool} {ch : MtdmaChan}
    (h : s.chan.Terminate running ch) : Effect s { s with chan := ch } := by
  refine .of_chan ?_ ?_ ?_ ?_ ?_ <;> rw [h.vc]

theorem Effect.of_issue {ch : MtdmaChan} {hd : Option Handed} (h : s.chan.Issue ch hd) :
    Effect s { s with chan := ch } := by
  cases h with
  | ignored => exact .of_chan rfl rfl rfl rfl rfl
  | nothing => exact .of_chan rfl VirtDmaChan.tags_vchanIssuePending rfl rfl rfl
  | start _ _ hs => exact .of_start hs rfl VirtDmaChan.tags_vchanIssuePending rfl rfl rfl

theorem Effect.of_done {ch : MtdmaChan} {hd : Option Handed} (h : s.chan.Done ch hd) :
    Effect s { s with chan := ch } := by
  cases h with
  | nothing => exact .of_chan rfl rfl rfl rfl rfl
  | next _ _ _ hs => exact .of_start hs rfl rfl rfl rfl rfl
  | retires => exact .retires _ rfl rfl
  | pauses => exact .of_chan rfl rfl rfl rfl rfl

/-- A call of the channel is one of the ways a call can end. -/
theorem calls_of_call {a : ChanAct} (h : step s (.call a) = some s') :
    ∃ r, s.chan.Calls s.nextId a r ∧ s.after a r = s' := by
  obtain ⟨r, hr, rfl⟩ := Option.map_eq_some_iff.mp h
  exact ⟨r, MtdmaChan.calls_of_eq hr, rfl⟩

theorem Effect.of_calls {a : ChanAct} {r : ChanCall} (hc : s.chan.Calls s.nextId a r) :
    Effect s (s.after a r) := by
  cases hc with
  | prep _ _ => exact .prepares _ rfl rfl
  | submit hvc => exact .submits _ _ hvc rfl
  | issue hi => exact .of_issue hi
  | done hd => exact .of_done hd
  | abort => exact .retires _ rfl rfl
  | terminate ht => exact .of_terminate ht
  | free ht => exact .of_terminate ht
  | prepFails _ | freeNothing | alloc | config => exact .of_chan rfl rfl rfl rfl rfl

/-- Every step has one of these effects. -/
theorem effect_of_step {a : LifeAct} (h : step s a = some s') : Effect s s' := by
  cases a with
  | call a =>
      obtain ⟨r, hc, rfl⟩ := calls_of_call h
      exact .of_calls hc
  | taskletTake =>
      simp only [step] at h
      split at h
      · next ht =>
          cases h
          refine .keeps rfl ?_ rfl rfl rfl rfl rfl
          simp [doneIds, ht]
      · contradiction
  | taskletCall =>
      simp only [step] at h
      split at h
      · next d rest ht =>
          cases h
          refine .keeps rfl ?_ rfl rfl rfl rfl rfl
          simp [doneIds, ht]
      · contradiction

/-! ## nothing is lost, doubled or overtaken -/

/-- **The invariant**: the log is what is done and then what waits, with the cookies it waits
with; a done descriptor is not live. -/
structure Inv (s : LifeSys) : Prop where
  distinct : s.chan.vc.Distinct s.nextId
  order : s.log.map (·.1) = s.doneIds ++ s.queuedIds
  tags : s.log.drop s.doneIds.length = s.chan.vc.tags
  gone : ∀ id ∈ s.doneIds, id ∉ s.chan.vc.liveIds ∧ id < s.nextId
  nodup : s.doneIds.Nodup

theorem inv_of_init (h : Init s) : s.Inv := by
  obtain ⟨dir, info, rfl⟩ := h
  refine ⟨VirtDmaChan.distinct_vchanInit 0, rfl, rfl, ?_, List.nodup_nil⟩
  intro id hid
  exact absurd hid (by simp [doneIds, MtdmaChan.setup, VirtDmaChan.vchanInit])

/-- The identities that wait. -/
theorem queuedIds_eq (s : LifeSys) : s.queuedIds = s.chan.vc.tags.map (·.1) := by
  simp [queuedIds, VirtDmaChan.tags]

theorem liveIds_eq (s : LifeSys) :
    s.chan.vc.liveIds = s.chan.vc.tags.map (·.1) ++ s.chan.vc.allocated.map (·.id) := by
  simp [VirtDmaChan.liveIds, VirtDmaChan.live, VirtDmaChan.tags]

theorem Inv.length_le (h : s.Inv) : s.doneIds.length ≤ s.log.length := by
  have hlen := congrArg List.length h.order
  rw [List.length_map, List.length_append] at hlen
  omega

/-- What is done and what waits are different descriptors. -/
theorem Inv.lifeCycle (h : s.Inv) : s.LifeCycle := by
  refine ⟨h.order, ?_⟩
  have hlive : s.queuedIds.Sublist s.chan.vc.liveIds := by
    rw [queuedIds_eq, liveIds_eq]
    exact List.sublist_append_left _ _
  rw [List.nodup_append]
  refine ⟨h.nodup, hlive.nodup h.distinct.nodup, ?_⟩
  intro id hid id' hid' heq
  exact (h.gone id hid).1 (heq ▸ hlive.subset hid')

/-- Completing the first waiting descriptor moves it from the front of what waits to the end
of what is done. -/
theorem retires_cases {ch : MtdmaChan} (hvc : ch.vc = s.chan.vc.retire) :
    (ch.vc = s.chan.vc) ∨
    ∃ d : VirtDmaDesc MtdmaDesc, s.chan.vc.tags = (d.id, d.cookie) :: ch.vc.tags ∧
      LifeSys.doneIds { s with chan := ch } = s.doneIds ++ [d.id] ∧
      s.chan.vc.liveIds = d.id :: ch.vc.liveIds ∧ ch.vc.cookie = s.chan.vc.cookie ∧
      ch.vc.completedCookie = d.cookie := by
  cases hi : s.chan.vc.issued with
  | nil =>
      refine .inl ?_
      rw [hvc, VirtDmaChan.retire, hi]
  | cons d rest =>
      have htags := VirtDmaChan.tags_of_issued hi
      have hlive := VirtDmaChan.liveIds_of_issued hi
      rw [← hvc] at htags hlive
      refine .inr ⟨d, htags, ?_, hlive, ?_, ?_⟩
      · simp [doneIds, hvc, VirtDmaChan.retire, hi, VirtDmaChan.vchanCookieComplete]
      · rw [hvc, VirtDmaChan.retire, hi]
        rfl
      · rw [hvc, VirtDmaChan.retire, hi]
        rfl

/-- **Step**: the invariant is kept, and what is done stays done. -/
theorem Inv.effect (h : s.Inv) (he : Effect s s') : s'.Inv ∧ s.doneIds <+: s'.doneIds := by
  cases he with
  | keeps hlog hdone htags halloc hnext =>
      refine ⟨⟨?_, ?_, ?_, ?_, ?_⟩, ?_⟩
      · rw [hnext]
        refine h.distinct.of_perm (List.Perm.of_eq ?_)
        rw [liveIds_eq, liveIds_eq, htags, halloc]
      · rw [hlog, hdone, queuedIds_eq, htags, ← queuedIds_eq]
        exact h.order
      · rw [hlog, hdone, htags]
        exact h.tags
      · rw [hdone, hnext, liveIds_eq, htags, halloc, ← liveIds_eq]
        exact h.gone
      · rw [hdone]
        exact h.nodup
      · rw [hdone]
  | prepares d hid heq =>
      subst heq
      refine ⟨⟨h.distinct.vchanTxPrep hid, h.order, h.tags, ?_, h.nodup⟩, List.prefix_rfl⟩
      intro id hgone
      obtain ⟨hlive, hlt⟩ := h.gone id hgone
      refine ⟨?_, Nat.lt_succ_of_lt hlt⟩
      simp only [VirtDmaChan.liveIds, VirtDmaChan.live, VirtDmaChan.queued,
        VirtDmaChan.vchanTxPrep] at hlive ⊢
      simp at hlive ⊢
      grind
  | submits id vc hs heq =>
      have htags := VirtDmaChan.tags_vchanTxSubmit hs
      have hperm := VirtDmaChan.liveIds_vchanTxSubmit hs
      have hlen := h.length_le
      have hcookie : vc.cookie = dmaCookieAssign s.chan.vc.cookie := by
        obtain ⟨_, _, _, _, _, rfl⟩ := VirtDmaChan.exists_of_vchanTxSubmit hs
        rfl
      have hdone : s'.doneIds = s.doneIds := by
        obtain ⟨_, _, _, _, _, rfl⟩ := VirtDmaChan.exists_of_vchanTxSubmit hs
        rw [heq]
        rfl
      subst heq
      refine ⟨⟨h.distinct.of_perm hperm, ?_, ?_, fun id hid => ?_, ?_⟩, ?_⟩
      · rw [hdone, queuedIds_eq, htags, List.map_append, List.map_append, h.order, queuedIds_eq,
          List.append_assoc]
        rfl
      · rw [hdone, htags, ← h.tags, List.drop_append_of_le_length hlen, hcookie]
      · rw [hdone] at hid
        rw [hperm.mem_iff]
        exact h.gone id hid
      · rw [hdone]
        exact h.nodup
      · rw [hdone]
  | retires ch hvc heq =>
      subst heq
      cases retires_cases hvc with
      | inl hsame =>
          have hdone : LifeSys.doneIds { s with chan := ch } = s.doneIds := by
            simp only [doneIds, hsame]
          refine ⟨⟨hsame ▸ h.distinct, ?_, ?_, ?_, ?_⟩, ?_⟩
          · rw [hdone, queuedIds_eq, hsame, ← queuedIds_eq]
            exact h.order
          · rw [hdone, hsame]
            exact h.tags
          · rw [hdone, hsame]
            exact h.gone
          · rw [hdone]
            exact h.nodup
          · rw [hdone]
      | inr hone =>
          obtain ⟨d, htags, hdone, hlive, -, -⟩ := hone
          have hnodup := h.distinct.nodup
          rw [hlive, List.nodup_cons] at hnodup
          have hd : d.id ∈ s.chan.vc.liveIds := hlive ▸ List.mem_cons_self
          refine ⟨⟨⟨hnodup.2, fun id hid => ?_⟩, ?_, ?_, ?_, ?_⟩, ?_⟩
          · exact h.distinct.lt id (hlive ▸ List.mem_cons_of_mem _ hid)
          · rw [hdone, queuedIds_eq, h.order, queuedIds_eq, htags, List.append_assoc]
            rfl
          · rw [hdone, List.length_append, ← List.drop_drop, h.tags, htags]
            rfl
          · rw [hdone]
            intro id hid
            rw [List.mem_append, List.mem_singleton] at hid
            cases hid with
            | inl hid =>
                obtain ⟨hno, hlt⟩ := h.gone id hid
                rw [hlive, List.mem_cons, not_or] at hno
                exact ⟨hno.2, hlt⟩
            | inr hid =>
                rw [hid]
                exact ⟨hnodup.1, h.distinct.lt _ hd⟩
          · rw [hdone, List.nodup_append]
            refine ⟨h.nodup, List.nodup_singleton _, fun id hid id' hid' heq => ?_⟩
            rw [List.mem_singleton] at hid'
            exact (h.gone id hid).1 (heq ▸ hid' ▸ hd)
          · rw [hdone]
            exact List.prefix_append _ _

/-! ## cookies -/

/-- Up to `cookieCount` submissions, the cookies are counted from 2 on, and the completed
cookie counts what is done. -/
structure Counted (s : LifeSys) : Prop where
  log : ∀ (k : Nat) (t : Nat × Int), s.log[k]? = some t → t.2 = (k : Int) + 2
  cookie : s.chan.vc.cookie = (s.log.length : Int) + 1
  completed : s.chan.vc.completedCookie = (s.doneIds.length : Int) + 1

theorem counted_of_init (h : Init s) : s.Counted := by
  obtain ⟨dir, info, rfl⟩ := h
  exact ⟨fun k t hk => by simp at hk, rfl, rfl⟩

/-- **Step**: cookies are counted on. -/
theorem Counted.effect (hc : s.Counted) (h : s.Inv) (he : Effect s s')
    (hfew : s'.log.length ≤ cookieCount) : s'.Counted := by
  obtain ⟨hlog, hcookie, hcompleted⟩ := hc
  cases he with
  | keeps hlog' hdone htags _ _ hcookie' hcompleted' =>
      refine ⟨?_, ?_, ?_⟩
      · rw [hlog']
        exact hlog
      · rw [hlog', hcookie']
        exact hcookie
      · rw [hdone, hcompleted']
        exact hcompleted
  | prepares d hid heq =>
      subst heq
      exact ⟨hlog, hcookie, hcompleted⟩
  | submits id vc hs heq =>
      obtain ⟨l, d, r, -, -, rfl⟩ := VirtDmaChan.exists_of_vchanTxSubmit hs
      subst heq
      have hlen : s.log.length + 1 ≤ cookieCount := by simpa using hfew
      have hnext : dmaCookieAssign s.chan.vc.cookie = (s.log.length : Int) + 2 := by
        unfold cookieCount at hlen
        rw [dmaCookieAssign_eq (by unfold IsCookie dmaMinCookie dmaMaxCookie; omega), hcookie,
          if_neg (by unfold dmaMaxCookie; omega)]
        omega
      refine ⟨fun k t hk => ?_, ?_, hcompleted⟩
      · rw [List.getElem?_append] at hk
        split at hk
        · exact hlog k t hk
        · next hge =>
          rw [List.getElem?_singleton] at hk
          split at hk
          · next hk0 =>
            obtain rfl := Option.some.inj hk
            change dmaCookieAssign s.chan.vc.cookie = _
            rw [hnext]
            omega
          · contradiction
      · simp only [List.length_append, List.length_singleton, hnext]
        omega
  | retires ch hvc heq =>
      subst heq
      cases retires_cases hvc with
      | inl hsame =>
          refine ⟨hlog, ?_, ?_⟩
          · rw [hsame]
            exact hcookie
          · simp only [doneIds, hsame] at hcompleted ⊢
            exact hcompleted
      | inr hone =>
          obtain ⟨d, htags, hdone, -, hcookie', hlast⟩ := hone
          refine ⟨hlog, hcookie'.trans hcookie, ?_⟩
          have hfirst : s.log[s.doneIds.length]? = some (d.id, d.cookie) := by
            rw [← List.head?_drop, h.tags, htags, List.head?_cons]
          have hd : d.cookie = _ := hlog _ _ hfirst
          rw [hdone, hlast, hd, List.length_append, List.length_singleton]
          omega

/-- No cookie is given twice. -/
theorem Counted.nodup (h : s.Counted) : (s.log.map (·.2)).Nodup := by
  rw [List.nodup_iff_injective_getElem]
  intro i j heq
  have hlt : ∀ k : Fin (s.log.map (·.2)).length, k.val < s.log.length := fun k => by
    exact k.isLt.trans_eq (List.length_map _)
  have hi := h.log i.val _ (List.getElem?_eq_getElem (hlt i))
  have hj := h.log j.val _ (List.getElem?_eq_getElem (hlt j))
  simp only [List.getElem_map, hi, hj] at heq
  exact Fin.ext (by omega)

/-! ## runs -/

theorem Effect.log_le (he : Effect s s') : s.log.length ≤ s'.log.length := by
  cases he with
  | keeps hlog => rw [hlog]
  | prepares d _ heq => rw [heq]
  | submits id vc _ heq =>
      rw [heq, List.length_append]
      exact Nat.le_add_right _ _
  | retires ch _ heq => rw [heq]

/-- **Run**: what a run from a state that meets the invariant leaves. -/
theorem Inv.run (h : s.Inv) (h' : Reaches step anyStep (· = s) s') :
    s'.Inv ∧ s.doneIds <+: s'.doneIds ∧
      (s'.log.length ≤ cookieCount → s.log.length ≤ cookieCount ∧ (s.Counted → s'.Counted)) := by
  refine h'.invariant (P := fun t => t.Inv ∧ s.doneIds <+: t.doneIds ∧
    (t.log.length ≤ cookieCount → s.log.length ≤ cookieCount ∧ (s.Counted → t.Counted))) ?_ ?_
  · rintro t rfl
    exact ⟨h, List.prefix_rfl, fun hfew => ⟨hfew, id⟩⟩
  · rintro t a t' ⟨hinv, hdone, hcount⟩ - hs
    have he := effect_of_step hs
    obtain ⟨hinv', hdone'⟩ := hinv.effect he
    refine ⟨hinv', hdone.trans hdone', fun hfew => ?_⟩
    obtain ⟨hfewer, hcounted⟩ := hcount (he.log_le.trans hfew)
    exact ⟨hfewer, fun hc => (hcounted hc).effect hinv he hfew⟩

theorem inv_of_reaches (h : Reaches step anyStep Init s) :
    s.Inv ∧ (s.log.length ≤ cookieCount → s.Counted) := by
  refine h.invariant (P := fun t => t.Inv ∧ (t.log.length ≤ cookieCount → t.Counted)) ?_ ?_
  · exact fun t ht => ⟨inv_of_init ht, fun _ => counted_of_init ht⟩
  · rintro t a t' ⟨hinv, hcount⟩ - hs
    have he := effect_of_step hs
    refine ⟨(hinv.effect he).1, fun hfew => ?_⟩
    exact (hcount (he.log_le.trans hfew)).effect hinv he hfew

/-- **Life cycle**: in every state of every run each submitted descriptor is in one place, in
the order of submission, and what is done stays done; and up to `cookieCount` submissions no
cookie is given twice and the completed cookie never decreases. -/
theorem life_cycle (h : Reaches step anyStep Init s) (h' : Reaches step anyStep (· = s) s') :
    s'.LifeCycle ∧ s.doneIds <+: s'.doneIds ∧
      (s'.log.length ≤ cookieCount → (s'.log.map (·.2)).Nodup ∧
        s.chan.vc.completedCookie ≤ s'.chan.vc.completedCookie) := by
  obtain ⟨hinv, hcount⟩ := inv_of_reaches h
  obtain ⟨hinv', hdone, hcount'⟩ := hinv.run h'
  refine ⟨hinv'.lifeCycle, hdone, fun hfew => ?_⟩
  obtain ⟨hfewer, hcounted⟩ := hcount' hfew
  have hc := hcount hfewer
  have hc' := hcounted hc
  refine ⟨hc'.nodup, ?_⟩
  have hlen := hdone.length_le
  rw [hc.completed, hc'.completed]
  omega

/-- A client that configures the channel, and prepares and submits a descriptor of one
chunk. -/
def submitFirst : List LifeAct :=
  [.config ⟨0x1000, 0x2000⟩, .prep [⟨0x8000, 64⟩] 1 true, .submit 0, .issuePending].map .call

theorem life_cycle_oneDesc : ∃ s s', Reaches step anyStep Init s ∧
    Reaches step anyStep (· = s) s' ∧ s.doneIds = [] ∧ s'.doneIds = [0] ∧
      (s'.LifeCycle ∧ s.doneIds <+: s'.doneIds ∧
        (s'.log.length ≤ cookieCount → (s'.log.map (·.2)).Nodup ∧
          s.chan.vc.completedCookie ≤ s'.chan.vc.completedCookie)) := by
  obtain ⟨s, hs, hids, hrun⟩ : ∃ s, Reaches step anyStep Init s ∧ s.doneIds = [] ∧
      (exec (guarded step anyStep) s [.call .doneInterrupt]).any (·.doneIds = [0]) = true :=
    exists_reaches submitFirst ⟨.memToDev, ⟨0, 0, 0, 0, 0, 1⟩, rfl⟩ (by decide)
  obtain ⟨s', hs', hids'⟩ : ∃ s', Reaches step anyStep (· = s) s' ∧ s'.doneIds = [0] :=
    exists_reaches [.call .doneInterrupt] rfl hrun
  exact ⟨s, s', hs, hs', hids, hids', life_cycle hs hs'⟩

/-! ## when cookies begin again -/

/-- A configured channel on which nothing waits, after `n` submissions. -/
def idleAfter (n : Nat) (cookie : Int) (completed : List (VirtDmaDesc MtdmaDesc))
    (log : List (Nat × Int)) : LifeSys where
  chan :=
    { vc := ⟨cookie, cookie, [], [], [], completed⟩
      dir := .memToDev
      info := ⟨0, 0, 0, 0, 0, 1⟩
      request := .none
      status := .idle
      configured := true
      config := ⟨0x1000, 0x2000⟩ }
  nextId := n
  taken := []
  freed := []
  log := log

/-- A descriptor of one chunk, from its preparation to its completion. -/
def oneRound (n : Nat) : List LifeAct :=
  [.prep [⟨0x8000, 64⟩] 1 true, .submit n, .issuePending, .doneInterrupt].map .call

theorem exec_oneRound (n : Nat) (cookie : Int) (completed : List (VirtDmaDesc MtdmaDesc))
    (log : List (Nat × Int)) :
    exec (guarded step anyStep) (idleAfter n cookie completed log) (oneRound n) =
      some (idleAfter (n + 1) (dmaCookieAssign cookie)
        (completed ++ [⟨n, 0, .noError, ⟨[], 64, 64⟩⟩]) (log ++ [(n, dmaCookieAssign cookie)])) := by
  simp [exec, guarded, anyStep, step, after, MtdmaChan.call, oneRound, idleAfter,
    MtdmaChan.mtdmaDevicePrepSlaveSg,
    MtdmaChan.mtdmaDeviceTransfer, MtdmaChan.transferRound, VirtDmaChan.vchanTxPrep,
    VirtDmaChan.vchanTxSubmit, MtdmaChan.mtdmaDeviceIssuePending, VirtDmaChan.vchanIssuePending,
    MtdmaChan.mtdmaStartTransfer, MtdmaChan.mtdmaDoneInterrupt, VirtDmaChan.vchanNextDesc,
    VirtDmaChan.retire, VirtDmaChan.vchanCookieComplete, MtdmaDesc.chunksAlloc]

/-- As many rounds as there are cookies. -/
theorem reaches_idleAfter (n : Nat) (hn : n ≤ cookieCount) : ∃ completed log,
    log.length = n ∧ Reaches step anyStep Init (idleAfter n ((n : Int) + 1) completed log) := by
  induction n with
  | zero =>
      have hinit : Init ⟨.setup .memToDev ⟨0, 0, 0, 0, 0, 1⟩, 0, [], [], []⟩ := ⟨_, _, rfl⟩
      exact ⟨[], [], rfl, (Reaches.start hinit).step (a := .call (.config ⟨0x1000, 0x2000⟩)) trivial rfl⟩
  | succ n ih =>
      obtain ⟨completed, log, hlen, hreach⟩ := ih (by omega)
      have hnext : dmaCookieAssign ((n : Int) + 1) = ((n + 1 : Nat) : Int) + 1 := by
        unfold cookieCount at hn
        rw [dmaCookieAssign_eq (by unfold IsCookie dmaMinCookie dmaMaxCookie; omega),
          if_neg (by unfold dmaMaxCookie; omega)]
        omega
      have hround := hreach.exec_guarded (exec_oneRound n _ completed log)
      rw [hnext] at hround
      exact ⟨_, _, by rw [List.length_append, hlen]; rfl, hround⟩

/-- **Cookies begin again**: with submission 2^31 - 1 the cookie is 1 again, and completing it
takes the completed cookie back from the largest one. -/
theorem cookie_decreases : ∃ s s', Reaches step anyStep Init s ∧
    Reaches step anyStep (· = s) s' ∧ s'.log.length < 0x80000000 ∧
      s'.chan.vc.completedCookie < s.chan.vc.completedCookie := by
  obtain ⟨completed, log, hlen, hreach⟩ := reaches_idleAfter cookieCount (Nat.le_refl _)
  let s := idleAfter cookieCount ((cookieCount : Int) + 1) completed log
  have hself : Reaches step anyStep (· = s) s := .start rfl
  refine ⟨s, _, hreach, hself.exec_guarded (exec_oneRound ..), ?_, ?_⟩
  · simp [idleAfter, hlen, cookieCount]
  · have hwrap : dmaCookieAssign ((cookieCount : Int) + 1) = 1 := by decide
    simp only [s, idleAfter, hwrap]
    decide

end LifeSys

end MtEmu
