import Mathlib.Data.List.Perm.Basic
import Mathlib.Data.List.Nodup
import Mathlib.Tactic.Common

/-!
# MtEmu.Engine.Vchan

Virtual DMA channels: cookies (`dmaengine.h`) and the lists of a channel
(`virt-dma.h`, `virt-dma.c`).

A descriptor goes from `desc_allocated` (prepared) to `desc_submitted`, to
`desc_issued`, to `desc_completed`, and from there the tasklet takes it to
its callback.  `live` is what has not been completed, the oldest first.

The lists keep two things: no descriptor is in them twice (`Distinct`), and
the cookies of what waits grow along `desc_issued` and `desc_submitted` and
lie between the channel's completed and its last cookie (`Ordered`).  As
cookies are used again from `DMA_MIN_COOKIE` on, they are compared by how far
they come after the completed one (`cookieGap`).
-/

namespace MtEmu

/-! ## cookies -/

/-- `enum dma_status`. -/
inductive DmaStatus where
  | complete
  | inProgress
  | paused
  | error
  deriving DecidableEq

/-- `DMA_MIN_COOKIE`. -/
def dmaMinCookie : Int := 1

/-- The largest `dma_cookie_t`. -/
def dmaMaxCookie : Int := 0x7fffffff

/-- `dma_cookie_assign`: the next cookie of a channel.  A cookie is an `s32`;
after the largest one the sum is negative, and the channel begins again. -/
def dmaCookieAssign (cookie : Int) : Int :=
  let next := (cookie + 1).bmod 0x100000000
  if next < dmaMinCookie then dmaMinCookie else next

/-- `dma_async_is_complete`: what a client is told of a cookie, by the last one
completed and the last one given.  The second case is that of cookies that
have begun again between these two. -/
def dmaAsyncIsComplete (cookie lastComplete lastUsed : Int) : DmaStatus :=
  if lastComplete ≤ lastUsed then
    if cookie ≤ lastComplete ∨ lastUsed < cookie then .complete else .inProgress
  else
    if cookie ≤ lastComplete ∧ lastUsed < cookie then .complete else .inProgress

/-- The cookies that `dma_cookie_assign` gives. -/
def IsCookie (cookie : Int) : Prop := dmaMinCookie ≤ cookie ∧ cookie ≤ dmaMaxCookie

/-- How many assignments `cookie` comes after `last`.  The cookies go round, so
there is no order of them; there is one from any of them on. -/
def cookieGap (last cookie : Int) : Int := (cookie - last) % dmaMaxCookie

/-- Cookies are counted up, and begin again after the largest one. -/
theorem dmaCookieAssign_eq {cookie : Int} (h : IsCookie cookie) :
    dmaCookieAssign cookie = if cookie = dmaMaxCookie then dmaMinCookie else cookie + 1 := by
  obtain ⟨hmin, hmax⟩ := h
  unfold dmaMinCookie at hmin
  unfold dmaMaxCookie at hmax
  simp only [dmaCookieAssign, dmaMinCookie, dmaMaxCookie, Int.bmod_def]
  grind

theorem isCookie_dmaCookieAssign {cookie : Int} (h : IsCookie cookie) :
    IsCookie (dmaCookieAssign cookie) := by
  rw [dmaCookieAssign_eq h]
  unfold IsCookie dmaMinCookie dmaMaxCookie at *
  split <;> omega

theorem cookieGap_nonneg (last cookie : Int) : 0 ≤ cookieGap last cookie :=
  Int.emod_nonneg _ (by decide)

/-- The next cookie comes one later, unless it is `last` itself. -/
theorem cookieGap_dmaCookieAssign {last cookie : Int} (hlast : IsCookie last) (h : IsCookie cookie)
    (hne : dmaCookieAssign cookie ≠ last) :
    cookieGap last (dmaCookieAssign cookie) = cookieGap last cookie + 1 := by
  rw [dmaCookieAssign_eq h] at hne ⊢
  unfold IsCookie cookieGap dmaMinCookie dmaMaxCookie at *
  split at hne <;> omega

/-- What comes after `mid` is counted from there: when `mid` is completed, the
gaps to all later cookies shrink by the same amount, and so stay in order. -/
theorem cookieGap_sub {last mid cookie : Int} (h : cookieGap last mid ≤ cookieGap last cookie) :
    cookieGap mid cookie = cookieGap last cookie - cookieGap last mid := by
  unfold cookieGap dmaMaxCookie at *
  omega

/-- A cookie between the completed and the last one is in progress. -/
theorem dmaAsyncIsComplete_of_gap {cookie lastComplete lastUsed : Int}
    (hc : IsCookie lastComplete) (hu : IsCookie lastUsed) (h : IsCookie cookie)
    (hpos : 0 < cookieGap lastComplete cookie)
    (hle : cookieGap lastComplete cookie ≤ cookieGap lastComplete lastUsed) :
    dmaAsyncIsComplete cookie lastComplete lastUsed = .inProgress := by
  unfold IsCookie cookieGap dmaMinCookie dmaMaxCookie at *
  unfold dmaAsyncIsComplete
  split
  · exact if_neg (by omega)
  · exact if_neg (by omega)

/-! ## descriptors and lists -/

/-- `enum dmaengine_tx_result`. -/
inductive TxResult where
  | noError
  | readFailed
  | writeFailed
  | aborted
  deriving DecidableEq

/-- `struct virt_dma_desc` in a driver's own descriptor `body`; `id` is its
identity, the address of the descriptor.  `cookie` is 0 before the descriptor
is submitted and after it is completed. -/
structure VirtDmaDesc (α : Type) where
  id : Nat
  cookie : Int
  result : TxResult
  body : α
  deriving DecidableEq

/-- `struct virt_dma_chan`: the channel's cookies and its lists.  They change
under the channel's lock, so each function below is one step.
`desc_terminated` is not among the lists, as the driver never fills it. -/
structure VirtDmaChan (α : Type) where
  cookie : Int
  completedCookie : Int
  allocated : List (VirtDmaDesc α)
  submitted : List (VirtDmaDesc α)
  issued : List (VirtDmaDesc α)
  completed : List (VirtDmaDesc α)
  deriving DecidableEq

namespace VirtDmaChan

variable {α : Type} {vc vc' : VirtDmaChan α}

/-- `vchan_init`. -/
def vchanInit : VirtDmaChan α := ⟨dmaMinCookie, dmaMinCookie, [], [], [], []⟩

/-- `vchan_tx_prep`. -/
def vchanTxPrep (vc : VirtDmaChan α) (d : VirtDmaDesc α) : VirtDmaChan α :=
  { vc with allocated := vc.allocated ++ [{ d with result := .noError }] }

/-- `vchan_tx_submit` of a prepared descriptor, which is found by its identity:
the client has a pointer to it, and may submit in another order than it
prepared.  `none` is a pointer to a descriptor that is not prepared. -/
def vchanTxSubmit (vc : VirtDmaChan α) (id : Nat) : Option (VirtDmaChan α) :=
  (vc.allocated.find? (·.id = id)).map fun d =>
    let cookie := dmaCookieAssign vc.cookie
    { vc with
      cookie := cookie
      allocated := vc.allocated.eraseP (·.id = id)
      submitted := vc.submitted ++ [{ d with cookie := cookie }] }

/-- `vchan_issue_pending`: the channel and whether anything is issued. -/
def vchanIssuePending (vc : VirtDmaChan α) : VirtDmaChan α × Bool :=
  ({ vc with submitted := [], issued := vc.issued ++ vc.submitted },
    !(vc.issued ++ vc.submitted).isEmpty)

/-- `vchan_next_desc`. -/
def vchanNextDesc (vc : VirtDmaChan α) : Option (VirtDmaDesc α) := vc.issued.head?

/-- `vchan_cookie_complete`, with `dma_cookie_complete` in it: the channel's
completed cookie is that of `d`, whatever it was before, and `d` waits for the
tasklet. -/
def vchanCookieComplete (vc : VirtDmaChan α) (d : VirtDmaDesc α) : VirtDmaChan α :=
  { vc with completedCookie := d.cookie, completed := vc.completed ++ [{ d with cookie := 0 }] }

/-- `dma_cookie_status`. -/
def dmaCookieStatus (vc : VirtDmaChan α) (cookie : Int) : DmaStatus :=
  dmaAsyncIsComplete cookie vc.completedCookie vc.cookie

/-- The first descriptor of `desc_issued` is taken off and completed. -/
def retire (vc : VirtDmaChan α) : VirtDmaChan α :=
  match vc.issued with
  | [] => vc
  | d :: rest => { vc with issued := rest }.vchanCookieComplete d

/-- What was submitted and is not completed, the oldest first.  `issue_pending`
moves the border between the two lists and leaves this as it is. -/
def queued (vc : VirtDmaChan α) : List (VirtDmaDesc α) := vc.issued ++ vc.submitted

/-- What waits behind the first issued descriptor. -/
def behind (vc : VirtDmaChan α) : List (VirtDmaDesc α) := vc.issued.tail ++ vc.submitted

/-- What was prepared and is not completed. -/
def live (vc : VirtDmaChan α) : List (VirtDmaDesc α) := vc.queued ++ vc.allocated

/-- The identities of the live descriptors. -/
def liveIds (vc : VirtDmaChan α) : List Nat := vc.live.map (·.id)

@[simp] theorem submitted_vchanIssuePending : vc.vchanIssuePending.1.submitted = [] := rfl

@[simp] theorem allocated_vchanIssuePending :
    vc.vchanIssuePending.1.allocated = vc.allocated := rfl

@[simp] theorem completed_vchanIssuePending :
    vc.vchanIssuePending.1.completed = vc.completed := rfl

@[simp] theorem queued_vchanIssuePending : vc.vchanIssuePending.1.queued = vc.queued := by
  simp [queued, vchanIssuePending]

/-- Retiring leaves what is behind. -/
theorem queued_retire : vc.retire.queued = vc.behind := by
  unfold VirtDmaChan.retire behind
  split
  · next h => simp [queued, h]
  · next h => simp [queued, vchanCookieComplete, h]

@[simp] theorem allocated_retire : vc.retire.allocated = vc.allocated := by
  unfold VirtDmaChan.retire
  split <;> rfl

/-- Submitting moves a prepared descriptor behind those that wait. -/
theorem exists_of_vchanTxSubmit {id : Nat} (h : vc.vchanTxSubmit id = some vc') :
    ∃ l d r, vc.allocated = l ++ d :: r ∧ d.id = id ∧
      vc' = { vc with
        cookie := dmaCookieAssign vc.cookie
        allocated := l ++ r
        submitted := vc.submitted ++ [{ d with cookie := dmaCookieAssign vc.cookie }] } := by
  unfold VirtDmaChan.vchanTxSubmit at h
  obtain ⟨d, hd, rfl⟩ := Option.map_eq_some_iff.mp h
  have hid : d.id = id := by simpa using List.find?_some hd
  obtain ⟨_, l, r, heq, hl⟩ := List.find?_eq_some_iff_append.mp hd
  refine ⟨l, d, r, heq, hid, ?_⟩
  have herase : vc.allocated.eraseP (·.id = id) = l ++ r := by
    rw [heq, List.eraseP_append_right _ (by simpa using hl), List.eraseP_cons_of_pos (by simp [hid])]
  simp only [herase]

/-! ## no descriptor is in the lists twice -/

/-- The live descriptors are distinct, and numbered below `n`. -/
structure Distinct (vc : VirtDmaChan α) (n : Nat) : Prop where
  nodup : vc.liveIds.Nodup
  lt : ∀ id ∈ vc.liveIds, id < n

@[simp] theorem distinct_vchanInit (n : Nat) : (vchanInit : VirtDmaChan α).Distinct n := by
  constructor <;> simp [vchanInit, liveIds, live, queued]

/-- A prepared descriptor is not one that waits. -/
theorem Distinct.not_queued {n : Nat} (h : vc.Distinct n) {d : VirtDmaDesc α}
    (hd : d ∈ vc.allocated) : d.id ∉ vc.queued.map (·.id) := by
  have hnodup := h.nodup
  rw [liveIds, live, List.map_append, List.nodup_append] at hnodup
  intro hq
  exact hnodup.2.2 _ hq _ (List.mem_map_of_mem hd) rfl

/-- What waits is numbered below the next identity. -/
theorem Distinct.lt_of_queued {n : Nat} (h : vc.Distinct n) {id : Nat}
    (hid : id ∈ vc.queued.map (·.id)) : id < n := by
  apply h.lt
  rw [liveIds, live, List.map_append]
  exact List.mem_append_left _ hid

theorem Distinct.vchanTxPrep {n : Nat} (h : vc.Distinct n) {d : VirtDmaDesc α} (hd : d.id = n) :
    (vc.vchanTxPrep d).Distinct (n + 1) := by
  have hids : (vc.vchanTxPrep d).liveIds = vc.liveIds ++ [n] := by
    simp [liveIds, live, queued, VirtDmaChan.vchanTxPrep, hd]
  constructor
  · rw [hids]
    have hn : n ∉ vc.liveIds := fun hn => absurd (h.lt n hn) (by omega)
    simp [List.nodup_append, h.nodup]
    grind
  · intro id hid
    rw [hids, List.mem_append, List.mem_singleton] at hid
    rcases hid with hid | rfl
    · exact Nat.lt_succ_of_lt (h.lt id hid)
    · exact Nat.lt_succ_self _

theorem Distinct.of_perm {n : Nat} (h : vc.Distinct n) (hp : vc'.liveIds.Perm vc.liveIds) :
    vc'.Distinct n :=
  ⟨hp.nodup_iff.mpr h.nodup, fun id hid => h.lt id (hp.mem_iff.mp hid)⟩

theorem Distinct.of_sublist {n : Nat} (h : vc.Distinct n) (hs : vc'.liveIds.Sublist vc.liveIds) :
    vc'.Distinct n :=
  ⟨hs.nodup h.nodup, fun id hid => h.lt id (hs.subset hid)⟩

theorem liveIds_vchanTxSubmit {id : Nat} (h : vc.vchanTxSubmit id = some vc') :
    vc'.liveIds.Perm vc.liveIds := by
  obtain ⟨l, d, r, heq, _, rfl⟩ := exists_of_vchanTxSubmit h
  simp only [liveIds, live, queued, heq, List.map_append, List.map_cons,
    List.append_assoc, List.singleton_append]
  refine List.Perm.append_left _ (List.Perm.append_left _ ?_)
  exact List.perm_middle.symm

@[simp] theorem liveIds_vchanIssuePending : vc.vchanIssuePending.1.liveIds = vc.liveIds := by
  simp [liveIds, live]

/-- Retiring takes off the first issued descriptor. -/
theorem issued_retire {d : VirtDmaDesc α} {rest : List (VirtDmaDesc α)}
    (h : vc.issued = d :: rest) : vc.retire.issued = rest := by
  rw [VirtDmaChan.retire, h]
  rfl

/-- Retiring takes the first live descriptor. -/
theorem liveIds_of_issued {d : VirtDmaDesc α} {rest : List (VirtDmaDesc α)}
    (h : vc.issued = d :: rest) : vc.liveIds = d.id :: vc.retire.liveIds := by
  simp only [liveIds, live, queued_retire, allocated_retire]
  simp [queued, behind, h]

theorem liveIds_retire : vc.retire.liveIds.Sublist vc.liveIds := by
  unfold VirtDmaChan.retire
  split
  · exact List.Sublist.refl _
  · next d rest heq => simp [liveIds, live, queued, vchanCookieComplete, heq]

/-! ## cookies grow along the lists -/

/-- The identities and cookies of what waits. -/
def tags (vc : VirtDmaChan α) : List (Nat × Int) := vc.queued.map fun d => (d.id, d.cookie)

/-- The waiting descriptors have growing cookies, after the completed one and
up to the last one. -/
structure Ordered (vc : VirtDmaChan α) : Prop where
  completed : IsCookie vc.completedCookie
  last : IsCookie vc.cookie
  cookie : ∀ t ∈ vc.tags, IsCookie t.2
  pos : ∀ t ∈ vc.tags, 0 < cookieGap vc.completedCookie t.2
  le : ∀ t ∈ vc.tags, cookieGap vc.completedCookie t.2 ≤ cookieGap vc.completedCookie vc.cookie
  grow : vc.tags.Pairwise fun t u =>
    cookieGap vc.completedCookie t.2 < cookieGap vc.completedCookie u.2

@[simp] theorem ordered_vchanInit : (vchanInit : VirtDmaChan α).Ordered := by
  constructor <;> simp [vchanInit, tags, queued, IsCookie, dmaMinCookie, dmaMaxCookie]

/-- A cookie that waits is not reported complete. -/
theorem Ordered.dmaCookieStatus (h : vc.Ordered) {t : Nat × Int} (ht : t ∈ vc.tags) :
    vc.dmaCookieStatus t.2 = .inProgress :=
  dmaAsyncIsComplete_of_gap h.completed h.last (h.cookie t ht) (h.pos t ht) (h.le t ht)

/-- A submitted descriptor waits behind the others. -/
theorem tags_vchanTxSubmit {id : Nat} (h : vc.vchanTxSubmit id = some vc') :
    vc'.tags = vc.tags ++ [(id, dmaCookieAssign vc.cookie)] := by
  obtain ⟨l, d, r, _, hid, rfl⟩ := exists_of_vchanTxSubmit h
  simp [tags, queued, hid]

theorem tags_of_issued {d : VirtDmaDesc α} {rest : List (VirtDmaDesc α)}
    (h : vc.issued = d :: rest) : vc.tags = (d.id, d.cookie) :: vc.retire.tags := by
  simp only [tags, queued_retire]
  simp [queued, behind, h]

@[simp] theorem tags_vchanIssuePending : vc.vchanIssuePending.1.tags = vc.tags := by
  simp [tags]

/-- The next cookie is not the completed one. -/
def CookieLeft (vc : VirtDmaChan α) : Prop := dmaCookieAssign vc.cookie ≠ vc.completedCookie

instance : Decidable vc.CookieLeft := inferInstanceAs (Decidable (_ ≠ _))

/-- A submission takes the next cookie. -/
theorem Ordered.vchanTxSubmit {id : Nat} (h : vc.Ordered) (hne : vc.CookieLeft)
    (hs : vc.vchanTxSubmit id = some vc') : vc'.Ordered := by
  have htags := tags_vchanTxSubmit hs
  have hgap := cookieGap_dmaCookieAssign h.completed h.last hne
  have hpos := cookieGap_nonneg vc.completedCookie vc.cookie
  have hnext := isCookie_dmaCookieAssign h.last
  obtain ⟨l, d, r, _, _, rfl⟩ := exists_of_vchanTxSubmit hs
  constructor
  · exact h.completed
  · exact hnext
  · rw [htags]
    intro t ht
    rcases List.mem_append.mp ht with ht | ht
    · exact h.cookie t ht
    · obtain rfl := List.mem_singleton.mp ht
      exact hnext
  · rw [htags]
    intro t ht
    rcases List.mem_append.mp ht with ht | ht
    · exact h.pos t ht
    · obtain rfl := List.mem_singleton.mp ht
      simp only [hgap]
      omega
  · rw [htags]
    intro t ht
    simp only [hgap]
    rcases List.mem_append.mp ht with ht | ht
    · have hle := h.le t ht
      omega
    · obtain rfl := List.mem_singleton.mp ht
      simp only [hgap]
      omega
  · rw [htags, List.pairwise_append]
    refine ⟨h.grow, by simp, ?_⟩
    intro t ht u hu
    obtain rfl := List.mem_singleton.mp hu
    have hle := h.le t ht
    simp only [hgap]
    omega

/-- The cookies and what waits decide. -/
theorem Ordered.of_eq (h : vc.Ordered) (hc : vc'.cookie = vc.cookie)
    (hcc : vc'.completedCookie = vc.completedCookie) (ht : vc'.tags = vc.tags) : vc'.Ordered := by
  obtain ⟨h1, h2, h3, h4, h5, h6⟩ := h
  rw [← hcc] at h1
  rw [← hc] at h2
  rw [← ht] at h3
  rw [← hcc, ← ht] at h4 h6
  rw [← hcc, ← hc, ← ht] at h5
  exact ⟨h1, h2, h3, h4, h5, h6⟩

/-- The cookies behind the first issued descriptor are counted from its own. -/
theorem Ordered.retire (h : vc.Ordered) : vc.retire.Ordered := by
  unfold VirtDmaChan.retire
  split
  · exact h
  · next d rest heq =>
      have ht := tags_of_issued heq
      simp only [VirtDmaChan.retire, heq] at ht
      obtain ⟨_, hlast, hcookie, _, hle, hgrow⟩ := h
      rw [ht] at hcookie hle hgrow
      obtain ⟨hd, hrest⟩ := List.pairwise_cons.mp hgrow
      have hgap : ∀ t ∈ tags _, _ := fun t ht => cookieGap_sub (Int.le_of_lt (hd t ht))
      have hdlast := hle _ List.mem_cons_self
      constructor
      · exact hcookie _ List.mem_cons_self
      · exact hlast
      · exact fun t ht => hcookie t (List.mem_cons_of_mem _ ht)
      · intro t ht
        have := hd t ht
        change 0 < cookieGap d.cookie t.2
        rw [hgap t ht]
        omega
      · intro t ht
        have := hle t (List.mem_cons_of_mem _ ht)
        change cookieGap d.cookie t.2 ≤ cookieGap d.cookie vc.cookie
        rw [hgap t ht, cookieGap_sub hdlast]
        omega
      · refine hrest.imp_of_mem fun {t u} ht hu htu => ?_
        change cookieGap d.cookie t.2 < cookieGap d.cookie u.2
        rw [hgap t ht, hgap u hu]
        omega

end VirtDmaChan

end MtEmu
