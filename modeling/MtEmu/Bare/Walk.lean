import MtEmu.Bare.Xfer

/-!
# MtEmu.Bare.Walk

Linked descriptors, and the hardware's walk over them.

The hardware starts from the descriptor in the channel registers, reads as
many list descriptors as `LBAR_BASIC[31:16]` says, and finds each one at the
address in the `lar` of the one before (`ChanMem.walk`).  On the driver's
side `Follows` says that an entry is stored where the entry before it points,
and `Apart` that two entries are stored in different places.  The two sides
meet in `walk_of_linked`: what the hardware visits is what was stored, when
the entries are linked and apart.
-/

namespace MtEmu

/-! ## links -/

/-- The place is the list slot at a device-visible address. -/
def Lli.IsAt (base addr : U64) : Lli → Prop
  | .slot idx => slotAddr base idx = addr
  | _ => False

@[simp] theorem isAt_slot (base addr idx : U64) :
    (Lli.slot idx).IsAt base addr ↔ slotAddr base idx = addr := Iff.rfl

/-- The second entry is stored where the first one's `lar` points. -/
def Follows (base : U64) (e e' : Entry) : Prop := e'.1.IsAt base e.2.lar

/-- Two entries are stored in different places. -/
def Apart (base : U64) (e e' : Entry) : Prop :=
  match e.1, e'.1 with
  | .regs, .slot _ => True
  | .slot i, .slot i' => slotAddr base i ≠ slotAddr base i'
  | _, _ => False

instance (base addr : U64) : (l : Lli) → Decidable (l.IsAt base addr)
  | .slot idx => inferInstanceAs (Decidable (slotAddr base idx = addr))
  | .regs => .isFalse id
  | .other _ => .isFalse id

instance (base : U64) (e e' : Entry) : Decidable (Follows base e e') :=
  inferInstanceAs (Decidable (e'.1.IsAt base e.2.lar))

/-- Slots of a window of less than 2 ^ 64 bytes have different addresses. -/
theorem slotAddr_inj {base i i' : U64} (hi : i.toNat < 2 ^ 59) (hi' : i'.toNat < 2 ^ 59)
    (h : slotAddr base i = slotAddr base i') : i = i' := by
  have hmul : i * descSize = i' * descSize := add_left_cancel h
  have hnat := congrArg BitVec.toNat hmul
  simp only [BitVec.toNat_mul, show descSize.toNat = 32 from rfl] at hnat
  apply BitVec.eq_of_toNat_eq
  omega

/-! ## the hardware's side -/

/-- Follow `lar` links for `n` descriptors. -/
def ChanMem.follow (m : ChanMem) : Nat → DmaChDesc → List DmaChDesc
  | 0, _ => []
  | n + 1, d => m.descAt d.lar :: m.follow n (m.descAt d.lar)

/-- The descriptors the hardware visits. -/
def ChanMem.walk (m : ChanMem) : List DmaChDesc :=
  m.regDesc :: m.follow (m.ch .lbarBasic >>> 16).toNat m.regDesc

/-! ## storing entries -/

/-- The writes that store the entries, in order. -/
def storeAll (es : List Entry) : List Access := es.flatMap fun e => setDesc e.1 e.2

/-- Memory holds the entry where it was stored. -/
def Holds (base : U64) (m : ChanMem) (e : Entry) : Prop :=
  match e.1 with
  | .regs => m.regDesc = e.2
  | .slot idx => m.descAt (slotAddr base idx) = e.2
  | .other _ => False

@[simp] theorem ch_writes_setDesc (base : U64) (m : ChanMem) (lli : Lli) (d : DmaChDesc) :
    (m.writes base (setDesc lli d)).ch = m.ch := by
  cases lli with
  | regs => rw [writes_setDesc_regs]
  | slot idx => rw [writes_setDesc_slot]
  | other addr => rfl

@[simp] theorem ch_writes_storeAll (base : U64) (m : ChanMem) (es : List Entry) :
    (m.writes base (storeAll es)).ch = m.ch := by
  induction es generalizing m with
  | nil => rfl
  | cons e es ih =>
      simp only [storeAll, List.flatMap_cons, ChanMem.writes_append] at ih ⊢
      simp [ih]

/-- An entry is held once it is stored. -/
theorem holds_store {base : U64} {m : ChanMem} {e : Entry} (h : ∀ a, e.1 ≠ .other a) :
    Holds base (m.writes base (setDesc e.1 e.2)) e := by
  unfold Holds
  cases hl : e.1 with
  | regs => simp [writes_setDesc_regs, ChanMem.regDesc]
  | slot idx => simp [writes_setDesc_slot, ChanMem.descAt]
  | other a => exact absurd hl (h a)

/-- Storing an entry somewhere else leaves a held entry alone. -/
theorem Holds.store {base : U64} {m : ChanMem} {e e' : Entry} (h : Holds base m e)
    (ha : Apart base e e') : Holds base (m.writes base (setDesc e'.1 e'.2)) e := by
  unfold Holds Apart at *
  cases hl' : e'.1 with
  | regs => cases hl : e.1 <;> simp [hl, hl'] at ha
  | other a => cases hl : e.1 <;> simp [hl, hl'] at ha
  | slot i' =>
      cases hl : e.1 with
      | regs => simpa [hl, hl', writes_setDesc_slot, ChanMem.regDesc] using h
      | other a => simp [hl, hl'] at ha
      | slot i =>
          simp only [hl, hl'] at h ha
          simp only [writes_setDesc_slot, ChanMem.descAt, Function.update_of_ne ha]
          exact h

/-- Entries that are stored apart from each other are all held at the end. -/
theorem holds_storeAll {base : U64} {m : ChanMem} {es : List Entry}
    (hapart : es.Pairwise (Apart base)) (hplace : ∀ e ∈ es, ∀ a, e.1 ≠ .other a) :
    ∀ e ∈ es, Holds base (m.writes base (storeAll es)) e := by
  have hkeep : ∀ (es : List Entry) (m : ChanMem) (e : Entry), Holds base m e →
      (∀ e' ∈ es, Apart base e e') → Holds base (m.writes base (storeAll es)) e := by
    intro es
    induction es with
    | nil => exact fun m e h _ => h
    | cons e' es ih =>
        intro m e h ha
        rw [storeAll, List.flatMap_cons, ChanMem.writes_append]
        exact ih _ e (h.store (ha e' List.mem_cons_self)) fun t ht =>
          ha t (List.mem_cons_of_mem e' ht)
  induction es generalizing m with
  | nil => exact fun e he => absurd he List.not_mem_nil
  | cons e es ih =>
      obtain ⟨he, hes⟩ := List.pairwise_cons.mp hapart
      intro t ht
      rw [storeAll, List.flatMap_cons, ChanMem.writes_append]
      cases List.mem_cons.mp ht with
      | inl h =>
          subst h
          exact hkeep es _ t (holds_store (hplace t List.mem_cons_self)) he
      | inr h =>
          exact ih hes (fun s hs => hplace s (List.mem_cons_of_mem e hs)) t h

/-! ## writes to other registers -/

/-- A write to a channel register other than `LBAR_BASIC`. -/
def Access.Aside (a : Access) : Prop := ∃ r v, a = .setCh r v ∧ r ≠ .lbarBasic

theorem lbarBasic_writes_aside {base : U64} {m : ChanMem} {as : List Access}
    (h : ∀ a ∈ as, a.Aside) : (m.writes base as).ch .lbarBasic = m.ch .lbarBasic := by
  induction as generalizing m with
  | nil => rfl
  | cons a as ih =>
      obtain ⟨r, v, rfl, hr⟩ := h a List.mem_cons_self
      rw [ChanMem.writes_cons, ih fun b hb => h b (List.mem_cons_of_mem _ hb)]
      exact Function.update_of_ne hr.symm v m.ch

theorem holds_write_setCh (base : U64) (m : ChanMem) (r : ChReg) (v : U32) (e : Entry) :
    Holds base (m.write base (.setCh r v)) e ↔ Holds base m e := by
  unfold Holds
  cases e.1 <;> rfl

theorem Holds.writes_aside {base : U64} {m : ChanMem} {as : List Access} {e : Entry}
    (he : Holds base m e) (h : ∀ a ∈ as, a.Aside) : Holds base (m.writes base as) e := by
  induction as generalizing m with
  | nil => exact he
  | cons a as ih =>
      obtain ⟨r, v, rfl, _⟩ := h a List.mem_cons_self
      exact ih ((holds_write_setCh base m r v e).mpr he) fun b hb => h b (List.mem_cons_of_mem _ hb)

/-! ## the walk -/

/-- The entry that follows is what the hardware finds behind the link. -/
theorem descAt_of_follows {base : U64} {m : ChanMem} {e e' : Entry} (h : Follows base e e')
    (hheld : Holds base m e') : m.descAt e.2.lar = e'.2 := by
  unfold Follows Lli.IsAt at h
  unfold Holds at hheld
  cases hl : e'.1 with
  | regs => simp [hl] at h
  | other a => simp [hl] at h
  | slot idx =>
      simp only [hl] at h hheld
      rw [← h]
      exact hheld

/-- Following links from an entry visits the entries linked after it. -/
theorem follow_of_linked {base : U64} {m : ChanMem} {e : Entry} {es : List Entry}
    (hlink : (e :: es).IsChain (Follows base)) (hheld : ∀ e' ∈ es, Holds base m e') :
    m.follow es.length e.2 = es.map Prod.snd := by
  induction es generalizing e with
  | nil => rfl
  | cons e' es ih =>
      obtain ⟨hfst, hrest⟩ := List.isChain_cons_cons.mp hlink
      have hd := descAt_of_follows hfst (hheld e' List.mem_cons_self)
      rw [List.length_cons, ChanMem.follow, hd, List.map_cons,
        ih hrest fun t ht => hheld t (List.mem_cons_of_mem e' ht)]

/-- **Walk**: linked entries that start in the registers and lie apart are
what the hardware visits, when `LBAR_BASIC` counts the ones in the list. -/
theorem walk_of_linked {base : U64} {m : ChanMem} {e : Entry} {es : List Entry}
    (hregs : e.1 = .regs) (hlink : (e :: es).IsChain (Follows base))
    (hheld : ∀ e' ∈ e :: es, Holds base m e')
    (hcnt : (m.ch .lbarBasic >>> 16).toNat = es.length) :
    m.walk = (e :: es).map Prod.snd := by
  have hreg : m.regDesc = e.2 := by
    have := hheld e List.mem_cons_self
    unfold Holds at this
    simpa only [hregs] using this
  rw [ChanMem.walk, hreg, hcnt,
    follow_of_linked hlink fun t ht => hheld t (List.mem_cons_of_mem e ht), List.map_cons]

/-- **A stored list is walked**: after a descriptor list is written, with any
writes to other registers around it, the hardware visits its entries. -/
theorem walk_writes {base : U64} {m : ChanMem} {l : DescList} {before after : List Access}
    (hafter : ∀ a ∈ after, a.Aside)
    (hregs : l.entries[0]?.map Prod.fst = some .regs)
    (hplace : ∀ e ∈ l.entries, ∀ a, e.1 ≠ .other a)
    (hlink : l.entries.IsChain (Follows base)) (hapart : l.entries.Pairwise (Apart base))
    (hcnt : (l.lbarBasic >>> 16).toNat + 1 = l.entries.length) :
    (m.writes base (before ++ l.accesses ++ after)).ch .lbarBasic = l.lbarBasic ∧
      (m.writes base (before ++ l.accesses ++ after)).walk = l.entries.map Prod.snd := by
  have hlbar : (m.writes base (before ++ l.accesses ++ after)).ch .lbarBasic = l.lbarBasic := by
    rw [ChanMem.writes_append, lbarBasic_writes_aside hafter, ChanMem.writes_append,
      DescList.accesses, ChanMem.writes_cons]
    change (ChanMem.writes base _ (storeAll l.entries)).ch .lbarBasic = _
    rw [ch_writes_storeAll]
    simp only [ChanMem.write, Function.update_self]
  have hheld : ∀ e ∈ l.entries,
      Holds base (m.writes base (before ++ l.accesses ++ after)) e := by
    intro e he
    rw [ChanMem.writes_append, ChanMem.writes_append]
    exact (holds_storeAll hapart hplace e he).writes_aside hafter
  refine ⟨hlbar, ?_⟩
  cases hes : l.entries with
  | nil => rw [hes] at hcnt; simp at hcnt
  | cons e es =>
      rw [hes] at hregs hlink hheld hcnt
      refine walk_of_linked (by simpa using hregs) hlink hheld ?_
      rw [hlbar]
      simpa using hcnt

end MtEmu
